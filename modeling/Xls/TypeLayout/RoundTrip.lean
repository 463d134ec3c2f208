import Xls.TypeLayout

/-!
# Xls.TypeLayout.RoundTrip

A value that is written to a buffer is read back exactly when no token clears what is not its
own (`roundTrips_iff`): a token clears the bytes at the start of the buffer, whatever its
offset.
-/

namespace Xls

open List Result Nat Bool Except
open KindedValue (byteCount toBytes fromBytes)

/-! ### Leaves -/

namespace OwnedValue

mutual

/-- The leaves of a value, in the order in which they are visited. -/
def leaves : OwnedValue → List OwnedValue
  | .bits b => [.bits b]
  | .token => [.token]
  | .tuple vs => leavesOf vs
  | .array vs => leavesOf vs

/-- The leaves of a list of values. -/
def leavesOf : List OwnedValue → List OwnedValue
  | [] => []
  | v :: vs => leaves v ++ leavesOf vs

end

theorem leaves_of_isLeafValue {v : OwnedValue} (h : v.isLeafValue = true) : v.leaves = [v] := by
  cases v with
  | bits b => rw [leaves]
  | token => rw [leaves]
  | tuple vs => cases h
  | array vs => cases h

theorem leaves_of_not_isLeafValue {v : OwnedValue} (h : v.isLeafValue = false) :
    v.leaves = leavesOf v.elements := by
  cases v with
  | bits b => cases h
  | token => cases h
  | _ => rw [leaves, elements]

end OwnedValue

open OwnedValue (leavesOf)

mutual

/-- The types of the leaves. -/
def IrType.leafTypes : IrType → List IrType
  | .bits w => [.bits w]
  | .token => [.token]
  | .tuple ts => leafTypesOf ts
  | .array n t => (replicate n (leafTypes t)).flatten

/-- The types of the leaves of some types. -/
def IrType.leafTypesOf : List IrType → List IrType
  | [] => []
  | t :: ts => leafTypes t ++ leafTypesOf ts

end

/-- The bytes of data of a leaf. -/
def IrType.dataSize : IrType → Nat
  | .bits w => byteCount w
  | _ => 0

mutual

theorem IrType.length_leafTypes : (t : IrType) → t.leafTypes.length = t.leafCount
  | .bits _ => by rw [leafTypes, leafCount]; rfl
  | .token => by rw [leafTypes, leafCount]; rfl
  | .tuple ts => by rw [leafTypes, leafCount, length_leafTypesOf ts]
  | .array n t => by simp [leafTypes, leafCount, length_leafTypes t]

theorem IrType.length_leafTypesOf : (ts : List IrType) →
    (IrType.leafTypesOf ts).length = IrType.leafCounts ts
  | [] => rfl
  | t :: ts => by
    rw [leafTypesOf, leafCounts, length_append, length_leafTypes t, length_leafTypesOf ts]

end

/-- A leaf value and the type of a leaf. -/
def IsLeafOf (v : OwnedValue) (t : IrType) : Prop :=
  v.isLeafValue = true ∧ v.conformsToType t = true

mutual

/-- The leaves of a value of a type. -/
theorem leaves_isLeafOf : (t : IrType) → {v : OwnedValue} → v.conformsToType t = true →
    Forall₂ IsLeafOf v.leaves t.leafTypes
  | .bits w, .bits b, h => by
    rw [OwnedValue.leaves, IrType.leafTypes]
    exact Forall₂.cons ⟨rfl, h⟩ Forall₂.nil
  | .token, .token, h => by
    rw [OwnedValue.leaves, IrType.leafTypes]
    exact Forall₂.cons ⟨rfl, h⟩ Forall₂.nil
  | .tuple ts, .tuple vs, h => by
    rw [OwnedValue.conformsToType] at h
    rw [OwnedValue.leaves, IrType.leafTypes]
    exact leavesOf_isLeafOf ts h
  | .array n t, .array vs, h => by
    rw [OwnedValue.conformsToType, and_eq_true, beq_iff_eq] at h
    rw [OwnedValue.leaves, IrType.leafTypes]
    obtain ⟨rfl, hall⟩ := h
    induction vs with
    | nil => exact Forall₂.nil
    | cons v vs ih =>
      rw [OwnedValue.conformToType, and_eq_true] at hall
      rw [OwnedValue.leavesOf, length_cons, replicate_succ, flatten_cons]
      exact rel_append (leaves_isLeafOf t hall.1) (ih hall.2)

theorem leavesOf_isLeafOf : (ts : List IrType) → {vs : List OwnedValue} →
    OwnedValue.conformToTypes vs ts = true → Forall₂ IsLeafOf (leavesOf vs) (IrType.leafTypesOf ts)
  | [], [], _ => Forall₂.nil
  | t :: ts, v :: vs, h => by
    rw [OwnedValue.conformToTypes, and_eq_true] at h
    rw [OwnedValue.leavesOf, IrType.leafTypesOf]
    exact rel_append (leaves_isLeafOf t h.1) (leavesOf_isLeafOf ts h.2)

end

theorem length_leaves {t : IrType} {v : OwnedValue} (h : v.conformsToType t = true) :
    v.leaves.length = t.leafCount :=
  (leaves_isLeafOf t h).length_eq.trans t.length_leafTypes

/-! ### Writing -/

/-- The writes of a leaf. -/
def leafWrites : OwnedValue × ElementLayout → List (Write UInt8)
  | (.bits b, e) =>
    (if e.dataSize = 0 then [] else [⟨e.offset, toBytes b⟩]) ++
      [⟨e.offset + e.dataSize, replicate (e.paddedSize - e.dataSize) 0⟩]
  | (.token, e) => [⟨0, replicate e.paddedSize 0⟩]
  | (.tuple _, _) | (.array _, _) => []

theorem leafValueToNativeLayout_eq {v : OwnedValue} (h : v.isLeafValue = true)
    (e : ElementLayout) (buffer : Buffer) :
    leafValueToNativeLayout v e buffer = .ok (Write.applyAll (leafWrites (v, e)) buffer) := by
  cases v with
  | bits b =>
    rw [leafValueToNativeLayout, leafWrites]
    split <;> rfl
  | token => rfl
  | tuple vs => cases h
  | array vs => cases h

theorem zip_append_drop {α β : Type} (as as' : List α) (bs : List β) :
    (as ++ as').zip bs = as.zip bs ++ as'.zip (bs.drop as.length) := by
  induction as generalizing bs with
  | nil => rfl
  | cons a as ih =>
    cases bs with
    | nil => simp
    | cons b bs => simp [ih]

namespace TypeLayout

/-- Enumerating the leaves of a value writes each of them once, at its place. -/
theorem enumerate_spec (elements : List ElementLayout) (stack : List (List OwnedValue))
    (leafIndex : Nat) (buffer : Buffer)
    (h : leafIndex + (stack.flatMap leavesOf).length ≤ elements.length) :
    enumerate elements stack leafIndex buffer = .ok (leafIndex + (stack.flatMap leavesOf).length,
        Write.applyAll
          (((stack.flatMap leavesOf).zip (elements.drop leafIndex)).flatMap leafWrites)
            buffer) := by
  induction stack, leafIndex, buffer using enumerate.induct with
  | case1 leafIndex buffer =>
    rw [enumerate]
    rfl
  | case2 stack leafIndex buffer ih =>
    rw [enumerate, ih h]
    rfl
  | case3 value frame stack leafIndex buffer hleaf ih =>
    have hsplit : ((value :: frame) :: stack).flatMap leavesOf =
        value :: (frame :: stack).flatMap leavesOf := by
      simp [leavesOf, OwnedValue.leaves_of_isLeafValue hleaf]
    generalize (frame :: stack).flatMap leavesOf = rest at hsplit ih
    rw [hsplit, length_cons] at h
    have hlt : leafIndex < elements.length := by omega
    rw [enumerate, if_pos hleaf, getElem?_eq_getElem hlt, hsplit,
      drop_eq_getElem_cons hlt, zip_cons_cons, flatMap_cons,
      Write.applyAll_append]
    show (leafValueToNativeLayout value elements[leafIndex] buffer >>= fun buffer =>
      enumerate elements (frame :: stack) (leafIndex + 1) buffer) = _
    rw [leafValueToNativeLayout_eq hleaf, ok_bind, ih _ (by omega), length_cons,
      Nat.add_right_comm, Nat.add_assoc]
  | case4 value frame stack leafIndex buffer hleaf ih =>
    have hsplit : ((value :: frame) :: stack).flatMap leavesOf =
        (value.elements :: frame :: stack).flatMap leavesOf := by
      simp [leavesOf, OwnedValue.leaves_of_not_isLeafValue (not_eq_true _ ▸ hleaf)]
    rw [enumerate, if_neg hleaf, hsplit]
    exact ih (hsplit ▸ h)

/-- The leaves of a value with their layouts. -/
def placed (layout : TypeLayout) (value : OwnedValue) : List (OwnedValue × ElementLayout) :=
  value.leaves.zip layout.elements

variable {value : OwnedValue}

/-- All leaves are written, in order. -/
theorem valueToNativeLayout_eq (layout : TypeLayout) (h : value.conformsToType layout.type = true)
    (buffer : Buffer) :
    layout.valueToNativeLayout value buffer =
      .ok (Write.applyAll ((layout.placed value).flatMap leafWrites) buffer) := by
  have hlength : value.leaves.length = layout.elements.length :=
    (length_leaves h).trans layout.length_elements.symm
  unfold valueToNativeLayout placed
  split
  · rename_i hleaf
    rw [OwnedValue.leaves_of_isLeafValue hleaf] at hlength ⊢
    obtain ⟨element, helement⟩ := length_eq_one_iff.mp hlength.symm
    rw [helement]
    show leafValueToNativeLayout value element buffer = _
    rw [leafValueToNativeLayout_eq hleaf]
    simp
  · rename_i hleaf
    have hleaves : [value.elements].flatMap leavesOf = value.leaves := by
      simp [OwnedValue.leaves_of_not_isLeafValue (not_eq_true _ ▸ hleaf)]
    have hloop := enumerate_spec layout.elements [value.elements] 0 buffer
      (by rw [hleaves, hlength]; omega)
    rw [hleaves, hlength, Nat.zero_add, drop_zero] at hloop
    rw [hloop]
    simp

/-! ### Reading -/

/-- A leaf that is read back from its place. -/
def Reads (buffer : Buffer) (p : OwnedValue × ElementLayout) : Prop :=
  ∀ b, p.1 = .bits b →
    fromBytes (buffer.span p.2.offset (byteCount b.width)) b.width = .ok b

theorem fromBytes_span (buffer : Buffer) (offset w : Nat) :
    ∃ b, fromBytes (buffer.span offset (byteCount w)) w = .ok b := by
  have hlength : (buffer.span offset (byteCount w)).length = byteCount w := by simp [Buffer.span]
  rw [fromBytes, hlength, beq_self_eq_true]
  exact ⟨_, rfl⟩

section Read

variable {elements : List ElementLayout} {buffer : Buffer}

/-- The leaves of the first of some values are read from the first places. -/
theorem reads_cons {v v' : OwnedValue} {vs vs' : List OwnedValue} {leafIndex n : Nat}
    (hlength : v.leaves.length = n)
    (hv : v' = v ↔ ∀ p ∈ v.leaves.zip (elements.drop leafIndex), Reads buffer p)
    (hvs : vs' = vs ↔ ∀ p ∈ (leavesOf vs).zip (elements.drop (leafIndex + n)), Reads buffer p) :
    v' :: vs' = v :: vs ↔
      ∀ p ∈ (leavesOf (v :: vs)).zip (elements.drop leafIndex), Reads buffer p := by
  rw [leavesOf, zip_append_drop, drop_drop, hlength, forall_mem_append, ← hv, ← hvs, cons.injEq]

/-- The elements of an array are read one after the other. -/
theorem arrayElements_spec {read : Nat → Result (OwnedValue × Nat)} {t : IrType}
    (hread : ∀ {v : OwnedValue}, v.conformsToType t = true → ∀ leafIndex,
      leafIndex + t.leafCount ≤ elements.length →
      ∃ v', read leafIndex = .ok (v', leafIndex + t.leafCount) ∧
        (v' = v ↔ ∀ p ∈ v.leaves.zip (elements.drop leafIndex), Reads buffer p))
    (vs : List OwnedValue) (h : OwnedValue.conformToType vs t = true) (leafIndex : Nat)
    (hle : leafIndex + vs.length * t.leafCount ≤ elements.length) :
    ∃ vs', arrayElements read vs.length leafIndex = .ok (vs', leafIndex + vs.length * t.leafCount) ∧
      (vs' = vs ↔ ∀ p ∈ (leavesOf vs).zip (elements.drop leafIndex), Reads buffer p) := by
  induction vs generalizing leafIndex with
  | nil =>
    refine ⟨[], ?_, by simp [leavesOf]⟩
    rw [length_nil, Nat.zero_mul]
    rfl
  | cons v vs ih =>
    rw [OwnedValue.conformToType, and_eq_true] at h
    rw [length_cons, succ_mul] at hle ⊢
    obtain ⟨v', hfirst, hv⟩ := hread h.1 leafIndex (by omega)
    obtain ⟨vs', hrest, hvs⟩ := ih h.2 (leafIndex + t.leafCount) (by omega)
    refine ⟨v' :: vs', ?_, reads_cons (length_leaves h.1) hv hvs⟩
    rw [arrayElements, hfirst, ok_bind]
    dsimp only
    rw [hrest, Nat.add_assoc, Nat.add_comm t.leafCount]
    rfl

mutual

/-- A value is read, and it is the one of its type whose leaves are read. -/
theorem nativeLayoutToValueInternal_spec : (t : IrType) → {v : OwnedValue} →
    v.conformsToType t = true → (leafIndex : Nat) → leafIndex + t.leafCount ≤ elements.length →
    ∃ v', nativeLayoutToValueInternal elements buffer t leafIndex =
        .ok (v', leafIndex + t.leafCount) ∧
      (v' = v ↔ ∀ p ∈ v.leaves.zip (elements.drop leafIndex), Reads buffer p)
  | .bits w, .bits b, h, leafIndex, hle => by
    rw [OwnedValue.conformsToType, beq_iff_eq] at h
    subst h
    rw [IrType.leafCount] at hle ⊢
    have hlt : leafIndex < elements.length := hle
    obtain ⟨b', hb'⟩ := fromBytes_span buffer elements[leafIndex].offset b.width
    refine ⟨.bits b', ?_, ?_⟩
    · rw [nativeLayoutToValueInternal, getElem?_eq_getElem hlt]
      show (fromBytes (buffer.span elements[leafIndex].offset (byteCount b.width)) b.width >>=
        fun b => pure (OwnedValue.bits b, leafIndex + 1)) = _
      rw [hb']
      rfl
    · rw [OwnedValue.leaves, drop_eq_getElem_cons hlt, zip_cons_cons,
        zip_nil_left, forall_mem_singleton]
      simp [Reads, hb']
  | .token, .token, _, leafIndex, hle => by
    rw [IrType.leafCount] at hle ⊢
    refine ⟨.token, by rw [nativeLayoutToValueInternal], ?_⟩
    rw [OwnedValue.leaves, drop_eq_getElem_cons hle, zip_cons_cons,
      zip_nil_left, forall_mem_singleton]
    simp [Reads]
  | .tuple ts, .tuple vs, h, leafIndex, hle => by
    rw [OwnedValue.conformsToType] at h
    rw [IrType.leafCount] at hle ⊢
    obtain ⟨vs', hread, hvs⟩ := tupleElements_spec ts h leafIndex hle
    refine ⟨.tuple vs', ?_, ?_⟩
    · rw [nativeLayoutToValueInternal, hread]
      rfl
    · rw [OwnedValue.tuple.injEq, OwnedValue.leaves]
      exact hvs
  | .array n t, .array vs, h, leafIndex, hle => by
    rw [OwnedValue.conformsToType, and_eq_true, beq_iff_eq] at h
    obtain ⟨rfl, hall⟩ := h
    rw [IrType.leafCount] at hle ⊢
    obtain ⟨vs', hread, hvs⟩ :=
      arrayElements_spec (nativeLayoutToValueInternal_spec t) vs hall leafIndex hle
    refine ⟨.array vs', ?_, ?_⟩
    · rw [nativeLayoutToValueInternal, hread]
      rfl
    · rw [OwnedValue.array.injEq, OwnedValue.leaves]
      exact hvs

theorem tupleElements_spec : (ts : List IrType) → {vs : List OwnedValue} →
    OwnedValue.conformToTypes vs ts = true → (leafIndex : Nat) →
    leafIndex + IrType.leafCounts ts ≤ elements.length →
    ∃ vs', tupleElements elements buffer ts leafIndex =
        .ok (vs', leafIndex + IrType.leafCounts ts) ∧
      (vs' = vs ↔ ∀ p ∈ (leavesOf vs).zip (elements.drop leafIndex), Reads buffer p)
  | [], [], _, leafIndex, _ => by
    refine ⟨[], ?_, by simp [leavesOf]⟩
    rw [tupleElements]
    rfl
  | t :: ts, v :: vs, h, leafIndex, hle => by
    rw [OwnedValue.conformToTypes, and_eq_true] at h
    rw [IrType.leafCounts] at hle ⊢
    obtain ⟨v', hfirst, hv⟩ := nativeLayoutToValueInternal_spec t h.1 leafIndex (by omega)
    obtain ⟨vs', hrest, hvs⟩ :=
      tupleElements_spec ts h.2 (leafIndex + t.leafCount) (by omega)
    refine ⟨v' :: vs', ?_, reads_cons (length_leaves h.1) hv hvs⟩
    rw [tupleElements, hfirst, ok_bind]
    dsimp only
    rw [hrest, Nat.add_assoc]
    rfl

end

end Read

/-- A value is read back when its leaves are. -/
theorem nativeLayoutToValue_eq_ok (layout : TypeLayout)
    (h : value.conformsToType layout.type = true) (buffer : Buffer) :
    layout.nativeLayoutToValue buffer = .ok value ↔ ∀ p ∈ layout.placed value, Reads buffer p := by
  obtain ⟨v', hread, hv⟩ :=
    @nativeLayoutToValueInternal_spec layout.elements buffer layout.type value h 0
      (by rw [layout.length_elements]; omega)
  rw [drop_zero] at hv
  rw [nativeLayoutToValue, hread, placed, ← hv]
  show ok v' = ok value ↔ v' = value
  rw [ok.injEq]

/-! ### Bytes of a leaf -/

theorem value_le_of_forall₂ (k : Nat) {xs ys : List Nat} (h : Forall₂ (· ≤ ·) xs ys) :
    ofDigits k xs ≤ ofDigits k ys := by
  induction h with
  | nil => exact le_refl _
  | cons hxy _ ih =>
    rw [ofDigits_cons, ofDigits_cons]
    exact Nat.add_le_add hxy (Nat.mul_le_mul_left k ih)

/-- Numbers of one length are equal if no digit of the first is larger and their values are. -/
theorem eq_of_le_of_value_eq {k : Nat} (hk : 0 < k) {xs ys : List Nat}
    (hle : Forall₂ (· ≤ ·) xs ys) (heq : ofDigits k xs = ofDigits k ys) : xs = ys := by
  induction hle with
  | nil => rfl
  | @cons x y xs ys hxy hrest ih =>
    rw [ofDigits_cons, ofDigits_cons] at heq
    have hmul := Nat.mul_le_mul_left k (value_le_of_forall₂ k hrest)
    have hx : x = y := by omega
    have htail : ofDigits k xs = ofDigits k ys :=
      Nat.eq_of_mul_eq_mul_left hk (by omega)
    rw [hx, ih htail]

/-- Bytes some of which are cleared give the value back only if none of them had bits. -/
theorem fromBytes_eq_ok_iff {bytes : List UInt8} {b : Bits}
    (h : Forall₂ (fun x y => x = y ∨ x = 0) bytes (toBytes b)) :
    fromBytes bytes b.width = .ok b ↔ bytes = toBytes b := by
  constructor
  · intro hread
    have hlength : bytes.length = byteCount b.width :=
      h.length_eq.trans (KindedValue.length_toBytes b)
    rw [fromBytes, hlength, beq_self_eq_true, checkThat_true, ok_bind, pure_eq_ok,
      ok.injEq] at hread
    have hdigits : Forall₂ (· ≤ ·) (bytes.map UInt8.toNat) ((toBytes b).map UInt8.toNat) := by
      rw [forall₂_map_left_iff, forall₂_map_right_iff]
      refine h.imp fun x y hxy => ?_
      rcases hxy with rfl | rfl
      · exact le_refl _
      · exact Nat.zero_le _
    -- The value does not grow, so the mask of the last word removes nothing.
    have hle := value_le_of_forall₂ (2 ^ 8) hdigits
    rw [KindedValue.value_toBytes] at hle
    have hval := congrArg Bits.val hread
    rw [Bits.ofNat_val_of_lt (lt_of_le_of_lt hle b.isLt)] at hval
    have heq := eq_of_le_of_value_eq (by decide) hdigits
      (hval.trans (KindedValue.value_toBytes b).symm)
    exact map_injective_iff.mpr (fun x y hxy => UInt8.toNat_inj.mp hxy) heq
  · rintro rfl
    exact KindedValue.fromBytes_toBytes b

end TypeLayout

/-! ### Places -/

/-- The range of an element. -/
def ElementLayout.Covers (e : ElementLayout) (a : Nat) : Prop :=
  e.offset ≤ a ∧ a < e.offset + e.paddedSize

namespace TypeLayout

/-- Elements that are disjoint, lie within the layout and have room for their data. -/
structure Fits (layout : TypeLayout) : Prop where
  disjoint : layout.elements.Pairwise fun e e' => ∀ a, ¬(e.Covers a ∧ e'.Covers a)
  within : ∀ e ∈ layout.elements, e.offset + e.paddedSize ≤ layout.size
  sized : Forall₂ (fun t e => e.dataSize = t.dataSize ∧ e.dataSize ≤ e.paddedSize)
    layout.type.leafTypes layout.elements

/-- A leaf with a place that has room for it. -/
structure WellPlaced (p : OwnedValue × ElementLayout) : Prop where
  leaf : p.1.isLeafValue = true
  sized : ∀ b, p.1 = .bits b → (toBytes b).length = p.2.dataSize
  le_padded : p.2.dataSize ≤ p.2.paddedSize

/-- Each leaf of a value lies within its place in the layout. -/
theorem wellPlaced_placed {layout : TypeLayout} (h : layout.Fits) {value : OwnedValue}
    (hvalue : value.conformsToType layout.type = true) :
    ∀ p ∈ layout.placed value, WellPlaced p := by
  have hleaves := leaves_isLeafOf layout.type hvalue
  have hsized := h.sized
  unfold placed
  generalize value.leaves = leaves, layout.type.leafTypes = types, layout.elements = elements
    at hleaves hsized
  induction hleaves generalizing elements with
  | nil => simp
  | @cons v t vs ts hleaf _ ih =>
    cases hsized with
    | @cons _ e _ es hsize hsized =>
      rw [zip_cons_cons]
      refine forall_mem_cons.mpr ⟨⟨hleaf.1, fun b hb => ?_, hsize.2⟩, ih _ hsized⟩
      obtain rfl : v = .bits b := hb
      cases t with
      | bits w =>
        have hwidth := hleaf.2
        rw [OwnedValue.conformsToType, beq_iff_eq] at hwidth
        rw [KindedValue.length_toBytes, hsize.1, IrType.dataSize, hwidth]
      | _ => exact absurd hleaf.2 (by simp [OwnedValue.conformsToType])

/-- What a leaf writes: zeros from the start of the buffer on for a token, and the element's
own range for the others. -/
theorem leafWrites_at {p : OwnedValue × ElementLayout} (hp : WellPlaced p) {w : Write UInt8}
    (hw : w ∈ leafWrites p) {a : Nat} {byte : UInt8} (hat : w.at? a = some byte) :
    (p.1 = .token ∧ a < p.2.paddedSize ∧ byte = 0) ∨ ((∃ b, p.1 = .bits b) ∧ p.2.Covers a) := by
  have hsome := Write.at?_isSome.mp (Option.isSome_iff_exists.mpr ⟨byte, hat⟩)
  obtain ⟨v, e⟩ := p
  cases v with
  | bits b =>
    have hlength := hp.sized b rfl
    have hle := hp.le_padded
    refine .inr ⟨⟨b, rfl⟩, ?_⟩
    dsimp only at hlength hle ⊢
    rw [leafWrites, mem_append, mem_singleton] at hw
    unfold ElementLayout.Covers
    rcases hw with hw | rfl
    · split at hw
      · cases hw
      · rw [mem_singleton] at hw
        subst hw
        dsimp only at hsome
        omega
    · rw [length_replicate] at hsome
      dsimp only at hsome
      omega
  | token =>
    rw [leafWrites, mem_singleton] at hw
    subst hw
    rw [length_replicate] at hsome
    refine .inl ⟨rfl, ?_, Write.at?_replicate hat⟩
    dsimp only at hsome ⊢
    omega
  | tuple vs => cases hw
  | array vs => cases hw

variable {e : ElementLayout}

theorem leafWrites_token {a : Nat} (h : a < e.paddedSize) :
    ∃ w ∈ leafWrites (.token, e), (w.at? a).isSome := by
  refine ⟨_, mem_singleton_self _, Write.at?_isSome.mpr ⟨Nat.zero_le _, ?_⟩⟩
  rw [length_replicate, Nat.zero_add]
  exact h

variable {b : Bits} {buffer : Buffer}

/-- The byte of a bits value after it was written. -/
theorem leafWrites_bits (hp : WellPlaced (.bits b, e)) {i : Nat} {byte : UInt8}
    (hbyte : (toBytes b)[i]? = some byte) (buffer : Buffer) :
    Write.applyAll (leafWrites (.bits b, e)) buffer (e.offset + i) = byte := by
  have hlt : i < e.dataSize := by
    have hlength := hp.sized b rfl
    have hi := (List.getElem?_eq_some_iff.mp hbyte).1
    dsimp only at hlength
    omega
  have hpadding : (Write.mk (e.offset + e.dataSize)
      (replicate (e.paddedSize - e.dataSize) (0 : UInt8))).at? (e.offset + i) = none := by
    rw [Write.at?, if_neg (by dsimp only; omega)]
  have hdata : (Write.mk e.offset (toBytes b)).at? (e.offset + i) = some byte :=
    (Write.at?_add _ i).trans hbyte
  rw [leafWrites, if_neg (by omega), singleton_append, Write.applyAll_cons,
    Write.applyAll_cons, Write.applyAll_nil, Write.apply_eq, hpadding, Write.apply_eq, hdata]
  rfl

/-- A span of the buffer, byte by byte. -/
theorem span_eq_toBytes_iff {offset : Nat} :
    buffer.span offset (byteCount b.width) = toBytes b ↔
      ∀ (i : Nat) byte, (toBytes b)[i]? = some byte → buffer (offset + i) = byte := by
  have hlength : (buffer.span offset (byteCount b.width)).length = (toBytes b).length := by
    simp [Buffer.span]
  have hspan : ∀ i, i < (toBytes b).length →
      (buffer.span offset (byteCount b.width))[i]? = some (buffer (offset + i)) := by
    intro i hi
    rw [KindedValue.length_toBytes] at hi
    simp [Buffer.span, getElem?_range hi]
  constructor
  · intro h i byte hbyte
    rw [← h] at hbyte
    rw [hspan i (hlength ▸ (List.getElem?_eq_some_iff.mp hbyte).1)] at hbyte
    exact Option.some.inj hbyte
  · intro h
    refine ext_getElem? fun i => ?_
    by_cases hi : i < (toBytes b).length
    · rw [hspan i hi, getElem?_eq_getElem hi, h i _ (getElem?_eq_getElem hi)]
    · rw [getElem?_eq_none (by omega), getElem?_eq_none (by omega)]

/-- A value is read back if the bytes hold it, where bytes that do not are zero. -/
theorem reads_iff (h : ∀ (i : Nat) byte, (toBytes b)[i]? = some byte →
      buffer (e.offset + i) = byte ∨ buffer (e.offset + i) = 0) :
    Reads buffer (.bits b, e) ↔
      ∀ (i : Nat) byte, (toBytes b)[i]? = some byte → buffer (e.offset + i) = byte := by
  have hspan : Forall₂ (fun x y => x = y ∨ x = 0)
      (buffer.span e.offset (byteCount b.width)) (toBytes b) := by
    refine forall₂_iff_get.mpr ⟨by simp [Buffer.span], fun i hi hi' => ?_⟩
    simp only [Buffer.span, get_eq_getElem, getElem_map, getElem_range]
    exact h i _ (getElem?_eq_getElem hi')
  rw [← span_eq_toBytes_iff, ← fromBytes_eq_ok_iff hspan]
  constructor
  · intro hreads
    exact hreads b rfl
  · intro hbytes b' hb'
    obtain rfl := OwnedValue.bits.inj hb'
    exact hbytes

/-! ### The round trip -/

section Written

variable {layout : TypeLayout} {value : OwnedValue} (hfits : layout.Fits)
  (hvalue : value.conformsToType layout.type = true) (buffer : Buffer)

include hfits hvalue

/-- The buffer outside the ranges of the elements is cleared by the tokens that reach there. -/
theorem written_outside {a : Nat} (ha : ∀ e ∈ layout.elements, ¬e.Covers a) :
    ((∃ e, (OwnedValue.token, e) ∈ layout.placed value ∧ a < e.paddedSize) →
        Write.applyAll ((layout.placed value).flatMap leafWrites) buffer a = 0) ∧
      ((∀ e, (OwnedValue.token, e) ∈ layout.placed value → ¬a < e.paddedSize) →
        Write.applyAll ((layout.placed value).flatMap leafWrites) buffer a = buffer a) := by
  have hwrites : ∀ w ∈ (layout.placed value).flatMap leafWrites, ∀ byte, w.at? a = some byte →
      (∃ e, (OwnedValue.token, e) ∈ layout.placed value ∧ a < e.paddedSize) ∧ byte = 0 := by
    intro w hw byte hat
    obtain ⟨⟨v, e⟩, hp, hw⟩ := mem_flatMap.mp hw
    rcases leafWrites_at (wellPlaced_placed hfits hvalue _ hp) hw hat with
      ⟨htoken, hlt, hzero⟩ | ⟨-, hcovers⟩
    · obtain rfl : v = .token := htoken
      exact ⟨⟨e, hp, hlt⟩, hzero⟩
    · exact absurd hcovers (ha e (of_mem_zip hp).2)
  constructor
  · rintro ⟨e, hp, hlt⟩
    obtain ⟨w, hw, hsome⟩ := leafWrites_token hlt
    refine Write.applyAll_of_exists (fun w hw byte hat => (hwrites w hw byte hat).2)
      ⟨w, mem_flatMap.mpr ⟨_, hp, hw⟩, hsome⟩
  · intro hnone
    refine Write.applyAll_of_none fun w hw => ?_
    cases hat : w.at? a with
    | none => rfl
    | some byte =>
      obtain ⟨⟨e, hp, hlt⟩, -⟩ := hwrites w hw byte hat
      exact absurd hlt (hnone e hp)

variable {before after : List (OwnedValue × ElementLayout)}

/-- A byte of a bits value is cleared by the tokens behind it that reach there. -/
theorem written_data {b : Bits} {e : ElementLayout}
    (hsplit : layout.placed value = before ++ (.bits b, e) :: after) {i : Nat} {byte : UInt8}
    (hbyte : (toBytes b)[i]? = some byte) :
    ((∃ e', (OwnedValue.token, e') ∈ after ∧ e.offset + i < e'.paddedSize) →
        Write.applyAll ((layout.placed value).flatMap leafWrites) buffer (e.offset + i) = 0) ∧
      ((∀ e', (OwnedValue.token, e') ∈ after → ¬e.offset + i < e'.paddedSize) →
        Write.applyAll ((layout.placed value).flatMap leafWrites) buffer (e.offset + i) =
          byte) := by
  have hplaced := wellPlaced_placed hfits hvalue
  have hdisjoint : (layout.placed value).Pairwise fun p q =>
      ∀ a, ¬(p.2.Covers a ∧ q.2.Covers a) := by
    have hsnd : (layout.placed value).map Prod.snd = layout.elements :=
      map_snd_zip ((length_leaves hvalue).trans layout.length_elements.symm).ge
    have hpairwise := hfits.disjoint
    rw [← hsnd] at hpairwise
    exact pairwise_map.mp hpairwise
  rw [hsplit] at hplaced hdisjoint ⊢
  have hp := hplaced (.bits b, e) (by simp)
  have hcovers : e.Covers (e.offset + i) := by
    have hlength := hp.sized b rfl
    have hle := hp.le_padded
    have hi := (List.getElem?_eq_some_iff.mp hbyte).1
    dsimp only at hlength hle
    exact ⟨by omega, by omega⟩
  have hwrites : ∀ w ∈ after.flatMap leafWrites, ∀ c, w.at? (e.offset + i) = some c →
      (∃ e', (OwnedValue.token, e') ∈ after ∧ e.offset + i < e'.paddedSize) ∧ c = 0 := by
    intro w hw c hat
    obtain ⟨⟨v, e'⟩, hq, hw⟩ := mem_flatMap.mp hw
    rcases leafWrites_at (hplaced _ (by simp [hq])) hw hat with
      ⟨htoken, hlt, hzero⟩ | ⟨-, hcovers'⟩
    · obtain rfl : v = .token := htoken
      exact ⟨⟨e', hq, hlt⟩, hzero⟩
    · have hafter := (pairwise_append.mp hdisjoint).2.1
      exact absurd ⟨hcovers, hcovers'⟩ ((pairwise_cons.mp hafter).1 _ hq _)
  rw [flatMap_append, flatMap_cons, Write.applyAll_append, Write.applyAll_append]
  constructor
  · rintro ⟨e', hq, hlt⟩
    obtain ⟨w, hw, hsome⟩ := leafWrites_token hlt
    exact Write.applyAll_of_exists (fun w hw c hat => (hwrites w hw c hat).2)
      ⟨w, mem_flatMap.mpr ⟨_, hq, hw⟩, hsome⟩
  · intro hnone
    rw [Write.applyAll_of_none, leafWrites_bits hp hbyte]
    intro w hw
    cases hat : w.at? (e.offset + i) with
    | none => rfl
    | some c =>
      obtain ⟨⟨e', hq, hlt⟩, -⟩ := hwrites w hw c hat
      exact absurd hlt (hnone e' hq)

/-- A bits value is read back if each of its bytes is still there. -/
theorem reads_written_iff {b : Bits} {e : ElementLayout}
    (hsplit : layout.placed value = before ++ (.bits b, e) :: after) :
    Reads (Write.applyAll ((layout.placed value).flatMap leafWrites) buffer) (.bits b, e) ↔
      ∀ (i : Nat) byte, (toBytes b)[i]? = some byte →
        Write.applyAll ((layout.placed value).flatMap leafWrites) buffer (e.offset + i) = byte := by
  refine reads_iff fun i byte hbyte => ?_
  obtain ⟨hcleared, hkept⟩ := written_data hfits hvalue buffer hsplit hbyte
  by_cases htoken : ∃ e', (OwnedValue.token, e') ∈ after ∧ e.offset + i < e'.paddedSize
  · exact .inr (hcleared htoken)
  · exact .inl (hkept fun e' he' hlt => htoken ⟨e', he', hlt⟩)

end Written

/-- A value that is read back after it was written to any buffer, where only bytes in the
ranges of the elements are written. -/
def RoundTrips (layout : TypeLayout) (value : OwnedValue) : Prop :=
  ∀ buffer, ∃ buffer', layout.valueToNativeLayout value buffer = .ok buffer' ∧
    layout.nativeLayoutToValue buffer' = .ok value ∧
    ∀ a, (∀ e ∈ layout.elements, ¬e.Covers a) → buffer' a = buffer a

/-- The bytes from the start of the buffer up to the size of a token belong to elements, and
those of the values before the token are zero. -/
structure TokensClearNothing (layout : TypeLayout) (value : OwnedValue) : Prop where
  covered : ∀ e, (OwnedValue.token, e) ∈ layout.placed value → ∀ a, a < e.paddedSize →
    ∃ e' ∈ layout.elements, e'.Covers a
  zero : ∀ before b e after, layout.placed value = before ++ (.bits b, e) :: after →
    ∀ e', (OwnedValue.token, e') ∈ after → ∀ (i : Nat) byte, (toBytes b)[i]? = some byte →
      e.offset + i < e'.paddedSize → byte = 0

/-- A value is read back exactly when no token clears anything. -/
theorem roundTrips_iff (layout : TypeLayout) (hfits : layout.Fits) (value : OwnedValue)
    (hvalue : value.conformsToType layout.type = true) :
    layout.RoundTrips value ↔ layout.TokensClearNothing value := by
  constructor
  · intro h
    constructor
    · intro e he a ha
      by_contra hnone
      have houtside : ∀ e ∈ layout.elements, ¬e.Covers a := by
        intro e' he' hcovers
        exact hnone ⟨e', he', hcovers⟩
      obtain ⟨buffer', hwrite, -, hframe⟩ := h fun _ => 1
      rw [valueToNativeLayout_eq layout hvalue] at hwrite
      cases hwrite
      have hzero := (written_outside hfits hvalue (fun _ => 1) houtside).1 ⟨e, he, ha⟩
      have hone := hframe a houtside
      rw [hzero] at hone
      exact absurd hone (by decide)
    · intro before b e after hsplit e' he' i byte hbyte hlt
      obtain ⟨buffer', hwrite, hread, -⟩ := h fun _ => 0
      rw [valueToNativeLayout_eq layout hvalue] at hwrite
      cases hwrite
      have hreads := (nativeLayoutToValue_eq_ok layout hvalue _).mp hread (.bits b, e)
        (by rw [hsplit]; simp)
      rw [reads_written_iff hfits hvalue _ hsplit] at hreads
      rw [← hreads i byte hbyte]
      exact (written_data hfits hvalue _ hsplit hbyte).1 ⟨e', he', hlt⟩
  · intro h buffer
    refine ⟨_, valueToNativeLayout_eq layout hvalue buffer, ?_, ?_⟩
    · rw [nativeLayoutToValue_eq_ok layout hvalue]
      rintro ⟨v, e⟩ hp b rfl
      obtain ⟨before, after, hsplit⟩ := append_of_mem hp
      refine (reads_written_iff hfits hvalue _ hsplit).mpr (fun i byte hbyte => ?_) b rfl
      obtain ⟨hcleared, hkept⟩ := written_data hfits hvalue buffer hsplit hbyte
      by_cases htoken : ∃ e', (OwnedValue.token, e') ∈ after ∧ e.offset + i < e'.paddedSize
      · obtain ⟨e', he', hlt⟩ := htoken
        rw [hcleared ⟨e', he', hlt⟩, h.zero before b e after hsplit e' he' i byte hbyte hlt]
      · exact hkept fun e' he' hlt => htoken ⟨e', he', hlt⟩
    · intro a ha
      refine (written_outside hfits hvalue buffer ha).2 fun e he hlt => ?_
      obtain ⟨e', he', hcovers⟩ := h.covered e he a hlt
      exact ha e' he' hcovers

/-- Eight bits and a token that takes one byte. -/
def paddedToken : TypeLayout where
  type := .tuple [.bits 8, .token]
  size := 2
  elements := [⟨0, 1, 1⟩, ⟨1, 0, 1⟩]
  length_elements := rfl

theorem fits_paddedToken : paddedToken.Fits where
  disjoint := by simp [paddedToken, ElementLayout.Covers]
  within := by simp [paddedToken]
  sized := by
    simp only [paddedToken, IrType.leafTypes, IrType.leafTypesOf, append_nil,
      cons_append, nil_append]
    exact Forall₂.cons ⟨rfl, by decide⟩ (Forall₂.cons ⟨rfl, by decide⟩ Forall₂.nil)

/-- The token clears the eight bits. -/
theorem not_roundTrips_paddedToken :
    ¬∀ layout : TypeLayout, layout.Fits → ∀ value : OwnedValue,
      value.conformsToType layout.type = true → layout.RoundTrips value := by
  intro h
  have hvalue : (OwnedValue.tuple [.bits (Bits.ofNat 8 1), .token]).conformsToType
      paddedToken.type = true := by
    simp [paddedToken, OwnedValue.conformsToType, OwnedValue.conformToTypes]
  obtain ⟨buffer', hwrite, hread, -⟩ := h paddedToken fits_paddedToken _ hvalue fun _ => 0
  rw [valueToNativeLayout_eq paddedToken hvalue] at hwrite
  cases hwrite
  rw [nativeLayoutToValue_eq_ok paddedToken hvalue] at hread
  have hbits := hread (.bits (Bits.ofNat 8 1), ⟨0, 1, 1⟩)
    (by simp [placed, paddedToken, OwnedValue.leaves, OwnedValue.leavesOf]) _ rfl
  simp only [placed, paddedToken, OwnedValue.leaves, OwnedValue.leavesOf] at hbits
  exact absurd hbits (by decide)

theorem roundTrips_iff_paddedToken :
    paddedToken.RoundTrips (.tuple [.bits (Bits.ofNat 8 1), .token]) ↔
      paddedToken.TokensClearNothing (.tuple [.bits (Bits.ofNat 8 1), .token]) :=
  roundTrips_iff paddedToken fits_paddedToken _
    (by simp [paddedToken, OwnedValue.conformsToType, OwnedValue.conformToTypes])

end TypeLayout

end Xls

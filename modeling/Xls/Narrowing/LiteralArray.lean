import Xls.Interpreter.ToBools
import Xls.Narrowing.ArrayIndex
import Xls.Narrowing.KnownBits
import Xls.OneBitMux.Sound
import Xls.Ternary

/-!
# Xls.Narrowing.LiteralArray

`MaybeNarrowLiteralArray` of the narrowing pass (`xls/passes/narrowing_pass.cc`). The bits
that all elements of a literal array of bits agree on are taken out of the elements, and an
element is put together again where the array is indexed (`maybeNarrowLiteralArray_sound`).
Other arrays, whose elements are arrays or tuples, are kept.
-/

namespace Xls

open Interpreter Bits TernaryValue Canonicalization List Nat
open Graph (Build World getNode bitCountOrDie makeNode replaceUsesWith)
open Graph.World

namespace Narrowing

open ArithSimplification (makeLiteral makeBitSlice)
open OneBitMux (retCheck)

/-! ### Constant bits -/

/-- One position of `UpdateWithIntersection` with `Bits`. -/
def intersectBit (t : TernaryValue) (rhs : Bool) : TernaryValue :=
  if t = .unknown then t
  else if (t == .knownOne) ≠ rhs then .unknown
  else t

/-- `UpdateWithIntersection` with `Bits`. -/
def updateWithIntersection (lhs : TernaryVector) (rhs : Bits) : Result TernaryVector := do
  checkThat (lhs.length == rhs.width)
  return zipWith intersectBit lhs rhs.toBools

/-- `constant_bits`, given the first element and all elements. -/
def constantBits (first : Bits) (elements : List Bits) : Result TernaryVector :=
  elements.foldlM updateWithIntersection (TernaryVector.ofBits first)

/-- `NumberOfKnownBits`. -/
def numberOfKnownBits (v : TernaryVector) : Nat := v.countP isKnown

/-- `narrowed_bits`: the bits at the unknown positions. -/
def narrowedBits : TernaryVector → List Bool → List Bool
  | t :: ts, b :: bs => if t = .unknown then b :: narrowedBits ts bs else narrowedBits ts bs
  | _, _ => []

/-! ### Slices -/

/-- `NonconstantSlice`. -/
structure NonconstantSlice where
  start : Int
  width : Nat

/-- `NonconstantSlice::clear`. -/
def NonconstantSlice.cleared : NonconstantSlice := ⟨-1, 0⟩

/-- `Slice`. -/
inductive Slice
  | literal (id : Nat)
  | nonconstant (slice : NonconstantSlice)

/-- `SlicedArray`. -/
structure SlicedArray where
  slices : List Slice
  arrayLiteral : Option Nat

/-- The finished slices, `current_known_slice` and `current_unknown_slice`. -/
structure SliceState where
  slices : List Slice
  known : List Bool
  unknown : NonconstantSlice

/-- `finish_known_slice`, if the slice is not empty. -/
def finishKnownSlice (s : SliceState) : Build SliceState :=
  if s.known.isEmpty then return s
  else do
    let constantSlice ← makeLiteral (ofBools s.known)
    return { s with slices := s.slices ++ [.literal constantSlice], known := [] }

/-- `finish_unknown_slice`, if the slice is not empty. -/
def finishUnknownSlice (s : SliceState) : SliceState :=
  if s.unknown.width = 0 then s
  else { s with slices := s.slices ++ [.nonconstant s.unknown], unknown := .cleared }

/-- One iteration of the loop over the constant bits. -/
def sliceBit (s : SliceState) (i : Nat) (t : TernaryValue) : Build SliceState :=
  if t = .unknown then do
    let s ← finishKnownSlice s
    if s.unknown.width = 0 then return { s with unknown := ⟨i, 1⟩ }
    else return { s with unknown := ⟨s.unknown.start, s.unknown.width + 1⟩ }
  else
    let s := finishUnknownSlice s
    return { s with known := s.known ++ [t == .knownOne] }

def sliceBits (s : SliceState) (i : Nat) : TernaryVector → Build SliceState
  | [] => return s
  | t :: ts => do
    let s ← sliceBit s i t
    sliceBits s (i + 1) ts

/-- `NarrowLiteralArrayToSlices`. -/
def narrowLiteralArrayToSlices (splitsEnabled : Bool) (id : Nat) (elements : List Value) :
    Build SlicedArray := do
  let bits ← Interpreter.bitsVector elements
  let first ← derefOption bits.head?
  let bitCount := first.width
  let constantBits ← constantBits first bits
  let knownBits := numberOfKnownBits constantBits
  if knownBits = bitCount then
    let constantLiteral ← makeLiteral (ofBools constantBits.toKnownBitsValues)
    return ⟨[.literal constantLiteral], none⟩
  else if knownBits = 0 then return ⟨[.nonconstant ⟨0, bitCount⟩], some id⟩
  else if !splitsEnabled then return ⟨[.nonconstant ⟨0, bitCount⟩], some id⟩
  else
    let s ← sliceBits ⟨[], [], .cleared⟩ 0 constantBits
    let s ← finishKnownSlice s
    let slices := (finishUnknownSlice s).slices
    checkThat (decide (1 < slices.length))
    let narrowedElements := bits.map fun x =>
      LeafTree.leaf (ofBools (narrowedBits constantBits x.toBools))
    let narrowedArray ← Value.array narrowedElements
    let arrayLiteral ← makeNode
      ⟨.literal narrowedArray, [], .array bits.length (.bits (bitCount - knownBits))⟩
    return ⟨slices, some arrayLiteral⟩

/-! ### Index nodes -/

/-- The positions of the users of a node. -/
def userIds (g : Graph) (id : Nat) : List Nat :=
  (range g.nodes.length).filter fun u => (g.nodes[u]?).any fun n => n.operands.contains id

/-- A node that indexes into the literal. -/
def indexesLiteral (literal : Nat) (n : Node) : Bool :=
  match n.kind, n.operands with
  | .arrayIndex, array :: _ :: _ => array == literal
  | _, _ => false

/-- Uses of a user of the literal are replaced, if it is an array index with indices. -/
def replaceIndex (literal : Nat) (replacement : List Nat → Build Nat) (user : Nat) :
    Build Unit := do
  let n ← getNode user
  match n.kind, n.operands with
  | .arrayIndex, array :: index :: indices => do
    retCheck (array == literal) "array_index->array() == literal"
    let value ← replacement (index :: indices)
    replaceUsesWith user value
  | _, _ => return ()

def replaceIndices (literal : Nat) (replacement : List Nat → Build Nat) : List Nat → Build Unit
  | [] => return ()
  | user :: users => do
    replaceIndex literal replacement user
    replaceIndices literal replacement users

/-- `bit_slices`, from the nonconstant bit position on. -/
def bitSlices (arrayIndex : Nat) : Nat → List Slice → Build (List Nat)
  | _, [] => return []
  | position, .nonconstant slice :: slices => do
    let valueSlice ← makeBitSlice arrayIndex position slice.width
    let rest ← bitSlices arrayIndex (position + slice.width) slices
    return valueSlice :: rest
  | position, .literal constantSlice :: slices => do
    let rest ← bitSlices arrayIndex position slices
    return constantSlice :: rest

def bitCounts : List Nat → Build (List Nat)
  | [] => return []
  | operand :: operands => do
    let bitCount ← bitCountOrDie operand
    let rest ← bitCounts operands
    return bitCount :: rest

/-- A `Concat`. -/
def makeConcat (operands : List Nat) : Build Nat := do
  let widths ← bitCounts operands
  makeNode ⟨.concat, operands, .bits widths.sum⟩

/-- The full value at the indices, from the narrowed array and the slices. -/
def arrayIndexValue (arrayLiteral : Nat) (slices : List Slice) (indices : List Nat) :
    Build Nat := do
  let arrayNode ← getNode arrayLiteral
  let type ← derefOption (arrayNode.type.indexedElementType indices.length)
  let newArrayIndex ← makeNode ⟨.arrayIndex, arrayLiteral :: indices, type⟩
  let slices ← bitSlices newArrayIndex 0 slices
  makeConcat slices.reverse

/-- What follows once the literal is sliced. -/
def replaceElements (literal : Nat) (sliced : SlicedArray) : Build Bool := do
  let g ← get
  match sliced.slices, sliced.arrayLiteral with
  | [], _ => throw .check
  | [.nonconstant _], _ => return false
  | [.literal constantLiteral], none => do
    replaceIndices literal (fun _ => return constantLiteral) (userIds g literal)
    return true
  | [.literal _], some _ => throw .check
  | _ :: _ :: _, none => throw .check
  | slices, some arrayLiteral => do
    replaceIndices literal (arrayIndexValue arrayLiteral slices) (userIds g literal)
    return true

/-- `MaybeNarrowLiteralArray`. -/
def maybeNarrowLiteralArray (splitsEnabled : Bool) (id : Nat) : Build Bool := do
  let g ← get
  let n ← getNode id
  match n.kind, n.type with
  | .literal value, .array _ (.bits _) =>
    if Canonicalization.isDead g id then return false
    else if value.children.isEmpty then return false
    else if !(g.users id).any (indexesLiteral id) then return false
    else do
      let sliced ← narrowLiteralArrayToSlices splitsEnabled id value.children
      replaceElements id sliced
  | _, _ => return false

/-! ### What the slices spell -/

section Values

variable {env : Env} {args : List Value} {w : World env args} {b : ℚ}

theorem admits_intersectBit {t : TernaryValue} {x y : Bool} (h : t.Admits x) :
    (intersectBit t y).Admits x := by
  unfold intersectBit
  split
  · exact h
  · split
    · trivial
    · exact h

theorem intersectBit_admits (t : TernaryValue) (x : Bool) : (intersectBit t x).Admits x := by
  cases t <;> cases x <;> decide

variable {c : TernaryVector} {bs : List Bool} {ss : List Slice} {s : SliceState} {xs : List Bits}
  {literal size k : Nat} {g : Graph}

/-- What the elements have in common is admitted by both. -/
theorem zipWith_intersectBit (h : c.length = bs.length) :
    TernaryVector.Admits (zipWith intersectBit c bs) bs ∧
      ∀ xs, c.Admits xs → TernaryVector.Admits (zipWith intersectBit c bs) xs := by
  induction c generalizing bs with
  | nil =>
    obtain rfl := length_eq_zero_iff.mp h.symm
    exact ⟨.nil, fun _ hxs => hxs⟩
  | cons t c ih =>
    cases bs with
    | nil => cases h
    | cons x bs =>
      obtain ⟨hbs, hkeep⟩ := ih (succ.inj h)
      refine ⟨.cons (intersectBit_admits t x) hbs, fun xs hxs => ?_⟩
      cases hxs with
      | cons ht hts => exact .cons (admits_intersectBit ht) (hkeep _ hts)

/-- The constant bits stand for every element. -/
theorem exists_constantBits {first : Bits} {elements : List Bits}
    (hwidth : ∀ x ∈ elements, x.width = first.width) :
    ∃ c, constantBits first elements = .ok c ∧ c.length = first.width ∧
      ∀ x ∈ elements, c.Admits x.toBools := by
  have hloop : ∀ (c : TernaryVector), c.length = first.width →
      ∃ c', elements.foldlM updateWithIntersection c = .ok c' ∧ c'.length = first.width ∧
        (∀ xs, c.Admits xs → c'.Admits xs) ∧ ∀ x ∈ elements, c'.Admits x.toBools := by
    induction elements with
    | nil => exact fun c hc => ⟨c, rfl, hc, fun _ h => h, fun x hx => absurd hx not_mem_nil⟩
    | cons x elements ih =>
      intro c hc
      obtain ⟨hx, hrest⟩ := forall_mem_cons.mp hwidth
      have hlength : c.length = x.toBools.length := by rw [toBools_length, hc, hx]
      obtain ⟨hadmits, hkeep⟩ := zipWith_intersectBit hlength
      obtain ⟨c', hrun, hc', hkeep', hall⟩ := ih hrest (zipWith intersectBit c x.toBools)
        (by rw [length_zipWith, ← hlength, Nat.min_self, hc])
      refine ⟨c', ?_, hc', fun xs hxs => hkeep' xs (hkeep xs hxs), ?_⟩
      · rw [foldlM_cons, updateWithIntersection, hc, hx, beq_self_eq_true]
        exact hrun
      · exact forall_mem_cons.mpr ⟨hkeep' _ hadmits, hall⟩
  obtain ⟨c, hrun, hlength, -, hall⟩ := hloop (TernaryVector.ofBits first)
    (by rw [TernaryVector.ofBits, length_map, toBools_length])
  exact ⟨c, hrun, hlength, hall⟩

/-- The slices spell a ternary vector: literals its known bits, the others its unknown bits. -/
inductive Spells (w : World env args) (b : ℚ) : List Slice → TernaryVector → Prop
  | nil : Spells w b [] []
  | literal {id : Nat} {ks : List Bool} {ss : List Slice} {c : TernaryVector}
      (h : w.Holds b id (ofBools ks)) (hs : Spells w b ss c) :
      Spells w b (.literal id :: ss) (ks.map TernaryValue.ofBool ++ c)
  | nonconstant {s : NonconstantSlice} {ss : List Slice} {c : TernaryVector}
      (hs : Spells w b ss c) :
      Spells w b (.nonconstant s :: ss) (replicate s.width .unknown ++ c)

variable {w' : World env args} {c' : TernaryVector} {y : Bits} {g' : Graph}
  {replacement : List Nat → Build Nat}

theorem Spells.mono (h : Spells w b ss c) (hle : w ≤ w') : Spells w' b ss c := by
  induction h with
  | nil => exact .nil
  | literal h _ ih => exact .literal (h.mono hle) ih
  | nonconstant _ ih => exact .nonconstant ih

theorem Spells.append {ss' : List Slice} (h : Spells w b ss c) (h' : Spells w b ss' c') :
    Spells w b (ss ++ ss') (c ++ c') := by
  induction h with
  | nil => exact h'
  | literal h _ ih =>
    rw [cons_append, List.append_assoc]
    exact .literal h ih
  | nonconstant _ ih =>
    rw [cons_append, List.append_assoc]
    exact .nonconstant ih

/-- The slices of the state and what is not finished spell the constant bits so far. -/
def Sliced (w : World env args) (b : ℚ) (s : SliceState) (c : TernaryVector) : Prop :=
  ∃ c', Spells w b s.slices c' ∧
    c = c' ++ (s.known.map TernaryValue.ofBool ++ replicate s.unknown.width .unknown) ∧
    (s.known = [] ∨ s.unknown.width = 0)

section

variable (h : Sliced w b s c)
include h

theorem Sliced.mono (hle : w ≤ w') : Sliced w' b s c := by
  obtain ⟨c', hspells, heq, hone⟩ := h
  exact ⟨c', hspells.mono hle, heq, hone⟩

/-- The known bits that are left are the last slice. -/
theorem ensures_finishKnownSlice :
    w.Ensures (finishKnownSlice s) fun w' s' => Sliced w' b s' c ∧ s'.known = [] := by
  unfold finishKnownSlice
  split
  · rename_i hempty
    exact ensures_pure fun w' hle => ⟨h.mono hle, isEmpty_iff.1 hempty⟩
  · rename_i hne
    obtain ⟨c', hspells, rfl, hone⟩ := h
    have hwidth := hone.resolve_left fun hnil => hne (isEmpty_iff.2 hnil)
    refine ensures_bind (ensures_literal (ofBools s.known) b) fun w₁ id h₁ hid => ?_
    refine ensures_pure fun w₂ h₂ => ⟨⟨_, (hspells.mono (h₁.trans h₂)).append
      (.literal (hid.mono h₂) .nil), ?_, .inl rfl⟩, rfl⟩
    rw [hwidth]
    simp

/-- The unknown bits that are left become the last slice. -/
theorem Sliced.finishUnknown :
    Sliced w b (finishUnknownSlice s) c ∧ (finishUnknownSlice s).unknown.width = 0 := by
  unfold finishUnknownSlice
  split
  · rename_i hzero
    exact ⟨h, hzero⟩
  · rename_i hpos
    obtain ⟨c', hspells, rfl, hone⟩ := h
    have hknown := hone.resolve_right hpos
    refine ⟨⟨_, hspells.append (.nonconstant .nil), ?_, .inr rfl⟩, rfl⟩
    rw [hknown]
    simp [NonconstantSlice.cleared]

/-- One more bit of the vector. -/
theorem ensures_sliceBit (i : Nat) (t : TernaryValue) :
    w.Ensures (sliceBit s i t) fun w' s' => Sliced w' b s' (c ++ [t]) := by
  unfold sliceBit
  split
  · rename_i ht
    subst ht
    refine ensures_bind (ensures_finishKnownSlice h) fun w₁ s' h₁ hs' => ?_
    obtain ⟨⟨c', hspells, rfl, -⟩, hknown⟩ := hs'
    split
    · rename_i hzero
      refine ensures_pure fun w₂ h₂ => ⟨c', hspells.mono h₂, ?_, .inl hknown⟩
      rw [hknown, hzero]
      simp
    · refine ensures_pure fun w₂ h₂ => ⟨c', hspells.mono h₂, ?_, .inl hknown⟩
      rw [hknown, replicate_succ']
      simp
  · rename_i ht
    obtain ⟨⟨c', hspells, rfl, -⟩, hzero⟩ := h.finishUnknown
    refine ensures_pure fun w₁ h₁ => ⟨c', hspells.mono h₁, ?_, .inr hzero⟩
    have hknown : TernaryValue.ofBool (t == .knownOne) = t := by
      cases t
      · rfl
      · rfl
      · exact absurd rfl ht
    rw [hzero]
    simp [hknown]

theorem ensures_sliceBits (i : Nat) (ts : TernaryVector) :
    w.Ensures (sliceBits s i ts) fun w' s' => Sliced w' b s' (c ++ ts) := by
  induction ts generalizing w s c i with
  | nil =>
    rw [append_nil]
    exact ensures_pure fun w' hle => h.mono hle
  | cons t ts ih =>
    refine ensures_bind (ensures_sliceBit h i t) fun w₁ s' h₁ hs' => ?_
    refine (ih hs' (i + 1)).imp fun w₂ s'' _ hs'' => ?_
    rwa [List.append_assoc, singleton_append] at hs''

end

/-! ### Elements -/

/-- The narrowed element has the unknown bits only. -/
theorem length_narrowedBits (h : c.Admits bs) :
    (narrowedBits c bs).length = c.length - numberOfKnownBits c := by
  induction h with
  | nil => rfl
  | @cons t x c bs hx _ ih =>
    have hle : numberOfKnownBits c ≤ c.length := countP_le_length
    rw [narrowedBits, numberOfKnownBits, countP_cons]
    unfold numberOfKnownBits at ih hle
    by_cases ht : t = .unknown
    · subst ht
      rw [if_pos rfl, length_cons, ih, length_cons]
      simp [isKnown]
      omega
    · have hknown : t.isKnown = true := by simpa [isKnown] using ht
      rw [if_neg ht, ih, length_cons, if_pos hknown]
      omega

/-- A vector in two parts admits lists in two parts. -/
theorem admits_append (h : TernaryVector.Admits (c ++ c') bs) :
    ∃ us vs, bs = us ++ vs ∧ c.Admits us ∧ c'.Admits vs ∧
      narrowedBits (c ++ c') bs = narrowedBits c us ++ narrowedBits c' vs := by
  induction c generalizing bs with
  | nil => exact ⟨[], bs, rfl, .nil, h, rfl⟩
  | cons t c ih =>
    cases h with
    | @cons _ x _ bs hx hbs =>
      obtain ⟨us, vs, rfl, hus, hvs, heq⟩ := ih hbs
      refine ⟨x :: us, vs, rfl, .cons hx hus, hvs, ?_⟩
      rw [cons_append, narrowedBits, narrowedBits, heq]
      split <;> rfl

/-- Known bits are dropped. -/
theorem admits_known {ks us : List Bool}
    (h : TernaryVector.Admits (ks.map TernaryValue.ofBool) us) :
    us = ks ∧ narrowedBits (ks.map TernaryValue.ofBool) us = [] := by
  induction ks generalizing us with
  | nil =>
    cases h
    exact ⟨rfl, rfl⟩
  | cons k ks ih =>
    cases h with
    | cons hx hus =>
      obtain ⟨rfl, hnil⟩ := ih hus
      refine ⟨by rw [eq_of_admits_ofBool hx], ?_⟩
      rw [map_cons, narrowedBits, if_neg (by cases k <;> decide), hnil]

/-- Unknown bits are kept. -/
theorem admits_unknown {n : Nat} {us : List Bool}
    (h : TernaryVector.Admits (replicate n .unknown) us) :
    us.length = n ∧ narrowedBits (replicate n .unknown) us = us := by
  induction n generalizing us with
  | zero =>
    cases h
    exact ⟨rfl, rfl⟩
  | succ n ih =>
    cases h with
    | cons _ hus =>
      obtain ⟨hlength, heq⟩ := ih hus
      refine ⟨by rw [length_cons, hlength], ?_⟩
      rw [replicate_succ, narrowedBits, if_pos rfl, heq]

/-- Slices that are not all of one kind are at least two. -/
theorem Spells.one_lt_length (h : Spells w b ss c) (hzero : numberOfKnownBits c ≠ 0)
    (hall : numberOfKnownBits c ≠ c.length) : 1 < ss.length := by
  have hknown : ∀ ks : List Bool,
      numberOfKnownBits (ks.map TernaryValue.ofBool) = (ks.map TernaryValue.ofBool).length := by
    intro ks
    rw [numberOfKnownBits, countP_eq_length]
    intro t ht
    obtain ⟨k, -, rfl⟩ := mem_map.mp ht
    cases k <;> rfl
  have hunknown : ∀ n, numberOfKnownBits (replicate n .unknown) = 0 := by
    intro n
    rw [numberOfKnownBits, countP_eq_zero]
    intro t ht
    rw [eq_of_mem_replicate ht]
    decide
  cases h with
  | nil => exact absurd rfl hzero
  | literal _ hs =>
    cases hs with
    | nil =>
      rw [append_nil] at hall
      exact absurd (hknown _) hall
    | _ => exact succ_lt_succ (succ_pos _)
  | nonconstant hs =>
    cases hs with
    | nil =>
      rw [append_nil] at hzero
      exact absurd (hunknown _) hzero
    | _ => exact succ_lt_succ (succ_pos _)

/-! ### The value of an index node -/

/-- Any node may be added. -/
abbrev AnyNode (_ : Node) : Prop := True

/-- The slices of the narrowed element and the literals hold the bits of the element. -/
theorem emits_bitSlices {b' : ℚ} (hb : b ≤ b') (h : Spells w b ss c) {i position : Nat}
    (hy : w.Holds b' i y) (hposition : position ≤ y.width) (hbs : c.Admits bs)
    (hbits : y.toBools.drop position = narrowedBits c bs) :
    Emits AnyNode w (bitSlices i position ss) fun w' ids => ∃ xs, HoldsAll w' b' ids xs ∧
      (xs.map toBools).flatten = bs := by
  induction ss generalizing w c position bs with
  | nil =>
    cases h
    cases hbs
    exact emits_pure fun _ _ => ⟨[], .nil, rfl⟩
  | cons s ss ih =>
    cases h with
    | @literal id ks _ c h hs =>
      obtain ⟨us, vs, rfl, hus, hvs, heq⟩ := admits_append hbs
      obtain ⟨rfl, hnil⟩ := admits_known hus
      rw [heq, hnil, nil_append] at hbits
      refine emits_bind (ih hs hy hposition hvs hbits) fun w₁ ids h₁ hids => ?_
      obtain ⟨xs, hxs, hflat⟩ := hids
      refine emits_pure fun w₂ h₂ => ⟨_, .cons ((h.weaken hb).mono (h₁.trans h₂))
        (hxs.mono h₂), ?_⟩
      rw [map_cons, flatten_cons, hflat, toBools_ofBools]
    | @nonconstant slice _ c hs =>
      obtain ⟨us, vs, rfl, hus, hvs, heq⟩ := admits_append hbs
      obtain ⟨hlength, hsame⟩ := admits_unknown hus
      rw [heq, hsame] at hbits
      have hle : position + slice.width ≤ y.width := by
        have hcount := congrArg length hbits
        rw [length_drop, toBools_length, length_append, hlength] at hcount
        omega
      refine emits_bind (emits_makeNode trivial (ensures_makeBitSlice hy hle))
        fun w₁ id h₁ hid => ?_
      have hrest : y.toBools.drop (position + slice.width) = narrowedBits c vs := by
        rw [← drop_drop, hbits, ← hlength, drop_left]
      refine emits_bind (ih (hs.mono h₁) (hy.mono h₁) hle hvs hrest) fun w₂ ids h₂ hids => ?_
      obtain ⟨xs, hxs, hflat⟩ := hids
      refine emits_pure fun w₃ h₃ => ⟨_, .cons (hid.mono (h₂.trans h₃)) (hxs.mono h₃), ?_⟩
      rw [map_cons, flatten_cons, hflat, toBools_slice hle, hbits, ← hlength, take_left]

theorem emits_bitCounts {ids : List Nat} (h : HoldsAll w b ids xs) :
    Emits AnyNode w (bitCounts ids) fun _ widths => widths = xs.map Bits.width := by
  induction h with
  | nil => exact emits_pure fun _ _ => rfl
  | cons hx _ ih =>
    refine emits_bitCountOrDie hx (emits_bind ih fun w₁ widths _ hwidths => ?_)
    subst hwidths
    exact emits_pure fun _ _ => rfl

theorem totalBits_widths (xs : List Bits) :
    IrType.totalBits (xs.map fun x => .bits x.width) = some (xs.map Bits.width).sum := by
  induction xs with
  | nil => rfl
  | cons x xs ih =>
    rw [map_cons, IrType.totalBits, ih]
    rfl

/-- The concatenation of nodes holds the concatenation of their values. -/
theorem emits_makeConcat {ids : List Nat} (h : HoldsAll w b ids xs) :
    Emits AnyNode w (makeConcat ids) fun w' id => w'.Holds b id (Bits.concat xs) := by
  refine emits_bind (emits_bitCounts h) fun w₁ widths h₁ hwidths => ?_
  subst hwidths
  have heval : evalNode env args .concat (.bits (xs.map Bits.width).sum)
      (xs.map .leaf) = .ok (.leaf (Bits.concat xs)) := by
    show (Interpreter.bitsVector _ >>= fun xs => Except.ok (LeafTree.leaf (Bits.concat xs))) = _
    rw [bitsVector_leaves]
    rfl
  have hoperands := (h.mono h₁).operands
  refine emits_makeNode trivial (ensures_makeBits hoperands.types ?_ ?_ hoperands.values heval
    hoperands.rank)
  · simp only [verifyNode, totalBits_widths, beq_self_eq_true]
  · rw [concat_width]

/-- The elements of the literal that an index node may read. -/
theorem arrayIndex_leaves {x : Bits} :
    Interpreter.arrayIndex (.node (xs.map .leaf)) [x] = .ok (.leaf y) ↔
      xs[x.bounded (xs.length - 1)]? = some y := by
  rw [Interpreter.arrayIndex, foldlM_cons, arrayElement]
  simp only [LeafTree.children, length_map, getElem?_map]
  cases xs[x.bounded (xs.length - 1)]? with
  | none => simp [derefOption]
  | some u =>
    show Except.ok (LeafTree.leaf u) = _ ↔ _
    simp

/-- An element of the narrowed array. -/
def narrowedElement (c : TernaryVector) (x : Bits) : Bits := ofBools (narrowedBits c x.toBools)

theorem emits_getNode {i : Nat} {t : IrType} {v : Value} (h : w.Has b i t v) :
    Emits AnyNode w (getNode i) fun _ n => n.type = t := by
  intro w₁ h₁
  obtain ⟨n, hn, ht⟩ := Option.map_eq_some_iff.mp (h.mono h₁).type
  refine ⟨n, w₁, ?_, le_refl w₁, .refl _, ht⟩
  unfold getNode
  rw [hn]
  rfl

/-- The element is put together again from the narrowed array. -/
theorem emits_arrayIndexValue {b' : ℚ} (hb : b ≤ b') (hspells : Spells w b ss c)
    (hadmits : ∀ x ∈ xs, c.Admits x.toBools) {arrayLiteral : Nat} (harray : w.Has b arrayLiteral
      (.array xs.length (.bits (c.length - numberOfKnownBits c)))
      (.node ((xs.map (narrowedElement c)).map .leaf))) {index : Nat} {z : Bits}
    (hindex : w.Holds b' index z) (hy : xs[z.bounded (xs.length - 1)]? = some y) :
    Emits AnyNode w (arrayIndexValue arrayLiteral ss [index]) fun w' id => w'.Holds b' id y := by
  have hyc : c.Admits y.toBools := hadmits y (mem_of_getElem? hy)
  have hwidth : (narrowedElement c y).width = c.length - numberOfKnownBits c := by
    rw [narrowedElement, ofBools_width, length_narrowedBits hyc]
  refine emits_bind (emits_getNode harray) fun w₁ n h₁ hn => ?_
  rw [hn]
  refine emits_lift (a := .bits (c.length - numberOfKnownBits c)) rfl ?_
  have heval : evalNode env args .arrayIndex
      (.bits (c.length - numberOfKnownBits c))
      [.node ((xs.map (narrowedElement c)).map .leaf), .leaf z] =
        .ok (.leaf (narrowedElement c y)) := by
    refine arrayIndex_leaves.2 ?_
    rw [length_map, getElem?_map, hy]
    rfl
  have hoperands : Operands w₁ b' [arrayLiteral, index]
      [.array xs.length (.bits (c.length - numberOfKnownBits c)), .bits z.width]
      [.node ((xs.map (narrowedElement c)).map .leaf), .leaf z] := by
    have harray' := harray.mono h₁
    exact .cons ⟨harray'.type, harray'.value, harray'.rank.trans_le hb⟩
      (.cons (hindex.mono h₁).has .nil)
  refine emits_bind (emits_makeNode trivial (ensures_makeBits hoperands.types ?_
    (by rw [hwidth]) hoperands.values heval hoperands.rank)) fun w₂ newArrayIndex h₂ hnew => ?_
  · simp [verifyNode, IrType.isBits, IrType.indexedElementType]
  have hle := h₁.trans h₂
  refine emits_bind (emits_bitSlices hb (hspells.mono hle) hnew (Nat.zero_le _) hyc
    (toBools_ofBools _)) fun w₃ ids h₃ hids => ?_
  obtain ⟨us, hus, hflat⟩ := hids
  have hreverse : HoldsAll w₃ b' ids.reverse us.reverse := forall₂_reverse_iff.mpr hus
  refine (emits_makeConcat hreverse).imp fun w₄ id _ hid => ?_
  have hconcat : Bits.concat us.reverse = y := by
    refine toBools_inj ?_
    rw [toBools_concat, map_reverse, reverse_reverse, hflat]
  rwa [hconcat] at hid

/-! ### The users of the literal -/

/-- Users of the literal are still its users. -/
def UsesKept (literal : Nat) (g g' : Graph) : Prop :=
  ∀ (i : Nat) n, g.nodes[i]? = some n → literal ∈ n.operands →
    ∃ n', g'.nodes[i]? = some n' ∧ literal ∈ n'.operands

theorem UsesKept.trans {g'' : Graph} (h : UsesKept literal g g') (h' : UsesKept literal g' g'') :
    UsesKept literal g g'' := by
  intro i n hn hmem
  obtain ⟨n', hn', hmem'⟩ := h i n hn hmem
  exact h' i n' hn' hmem'

theorem usesKept_of_extends (h : Extends AnyNode g g') : UsesKept literal g g' := by
  obtain ⟨made, rfl, -⟩ := h
  intro i n hn hmem
  refine ⟨n, ?_, hmem⟩
  show (g.nodes ++ made)[i]? = some n
  rw [getElem?_append_left (List.getElem?_eq_some_iff.1 hn).1, hn]

/-- Replacing uses of another node keeps the uses of the literal. -/
theorem usesKept_of_replace {old new : Nat} (hne : literal ≠ old)
    (h : replaceUsesWith old new g = .ok ((), g')) : UsesKept literal g g' := by
  intro i n hn hmem
  unfold replaceUsesWith at h
  split at h
  · cases h
    refine ⟨Graph.redirect old new n, ?_, ?_⟩
    · show (g.nodes.map (Graph.redirect old new))[i]? = _
      rw [getElem?_map, hn]
      rfl
    · exact mem_map.mpr ⟨literal, hmem, if_neg hne⟩
  · cases h

/-- From every later world on, the replacement for an index holds the element of the literal. -/
def Replaces (w : World env args) (literal : Nat) (xs : List Bits)
    (replacement : List Nat → Build Nat) : Prop :=
  ∀ w₁, w ≤ w₁ → ∀ (b' : ℚ) index (z y : Bits), w₁.rank literal < b' → w₁.Holds b' index z →
    xs[z.bounded (xs.length - 1)]? = some y →
      Emits AnyNode w₁ (replacement [index]) fun w' id => w'.Holds b' id y

section

variable (hliteral : w.Has b literal (.array size (.bits k)) (.node (xs.map .leaf)))
  (hrep : Replaces w literal xs replacement)
include hliteral hrep

/-- An index of the literal is replaced by one of the narrowed array. -/
theorem replaceIndex_returns {user : Nat} {n : Node} (hn : w.graph.nodes[user]? = some n)
    (huse : literal ∈ n.operands) :
    ∃ w' : World env args, replaceIndex literal replacement user w.graph = .ok ((), w'.graph) ∧
      w ≤ w' ∧ UsesKept literal w.graph w'.graph := by
  obtain ⟨types, ops, v, hat⟩ := exists_at hn
  have hverified := hat.verified
  have heval := hat.eval
  have hoperands := hat.operands
  unfold replaceIndex
  rw [run_getNode hn]
  generalize hkind : n.kind = kind
  generalize hops : n.operands = os
  split
  rotate_left
  · exact ⟨w, rfl, le_refl w, fun i m hm hmem => ⟨m, hm, hmem⟩⟩
  rename_i array index indices
  rw [hkind] at hverified heval
  rw [hops] at hoperands huse
  cases hoperands with
  | @cons _ t a _ ts us ha hindices =>
    simp only [verifyNode, Bool.and_eq_true, all_eq_true, beq_iff_eq] at hverified
    obtain ⟨hbits, htype⟩ := hverified
    obtain ⟨zs, hzs, rfl, rfl⟩ := holdsAll_of_operands hindices hbits
    -- the literal is an array, so it is not one of the indices
    have heq : literal = array := by
      refine (mem_cons.mp huse).resolve_right fun hmem => ?_
      obtain ⟨i, hi, rfl⟩ := getElem_of_mem hmem
      have hz := hzs.get hi (by rwa [← hzs.length_eq])
      cases hliteral.type.symm.trans hz.type
    subst heq
    cases hliteral.type.symm.trans ha.type
    cases hliteral.value.symm.trans ha.value
    -- its elements are bits, so there is one index
    obtain ⟨z, hz, rfl, hk⟩ : ∃ z, w.Holds (w.rank user) index z ∧ zs = [z] ∧
        indices = [] ∧ n.type = .bits k := by
      cases hzs with
      | @cons _ z _ zs hz hzs =>
        cases hzs with
        | nil =>
          refine ⟨z, hz, rfl, rfl, ?_⟩
          simpa [IrType.indexedElementType] using htype.symm
        | cons _ _ => simp [IrType.indexedElementType] at htype
    obtain ⟨rfl, hk⟩ := hk
    have hconf := hat.conforms
    rw [hk] at hconf
    obtain ⟨y, rfl, rfl⟩ := Value.conforms_bits hconf
    have hy := arrayIndex_leaves.1 (show Interpreter.arrayIndex _ [z] = .ok (.leaf y) from heval)
    have huser : w.Holds (w.rank user + 1) user y :=
      ⟨by rw [hn, Option.map_some, hk], hat.value, lt_add_one _⟩
    obtain ⟨value, w₁, hrun, h₁, hextends, hvalue⟩ :=
      hrep w (le_refl w) (w.rank user) index z y ha.rank hz hy w (le_refl w)
    rw [← h₁.rank user huser.lt] at hvalue
    obtain ⟨_, w₂, hrun', h₂, -⟩ :=
      ensures_replaceUsesWith (huser.mono h₁) hvalue w₁ (le_refl w₁)
    refine ⟨w₂, ?_, h₁.trans h₂, (usesKept_of_extends hextends).trans
      (usesKept_of_replace (fun heq => ?_) hrun')⟩
    · rw [beq_self_eq_true]
      show (replacement [index] w.graph >>= fun p => replaceUsesWith user p.1 p.2) = _
      rw [hrun]
      exact hrun'
    · subst heq
      exact lt_irrefl _ ha.rank

/-- All indices of the literal are replaced. -/
theorem replaceIndices_returns {users : List Nat}
    (huses : ∀ u ∈ users, ∃ n, w.graph.nodes[u]? = some n ∧ literal ∈ n.operands) :
    w.Returns (replaceIndices literal replacement users) := by
  induction users generalizing w with
  | nil => exact ⟨(), w, rfl, le_refl w⟩
  | cons user users ih =>
    obtain ⟨⟨n, hn, huse⟩, husers⟩ := forall_mem_cons.mp huses
    obtain ⟨w₁, hrun, h₁, hkept⟩ := replaceIndex_returns hliteral hrep hn huse
    obtain ⟨_, w₂, hrun', h₂⟩ := ih (hliteral.mono h₁) (fun w₂ h₂ => hrep w₂ (h₁.trans h₂))
      (fun u hu => by
        obtain ⟨m, hm, hmem⟩ := husers u hu
        exact hkept u m hm hmem)
    refine ⟨(), w₂, ?_, h₁.trans h₂⟩
    show (replaceIndex literal replacement user w.graph >>= fun p =>
      replaceIndices literal replacement users p.2) = _
    rw [hrun]
    exact hrun'

end

theorem uses_of_mem_userIds {id u : Nat} (h : u ∈ userIds g id) :
    ∃ n, g.nodes[u]? = some n ∧ id ∈ n.operands := by
  obtain ⟨-, hany⟩ := mem_filter.mp h
  obtain ⟨n, hn, hmem⟩ := (Option.any_eq_true _ _).mp hany
  exact ⟨n, hn, contains_iff_mem.mp hmem⟩

/-! ### The literal -/

/-- What the literal is sliced into. -/
inductive SlicedFor (w : World env args) (b : ℚ) (xs : List Bits) : SlicedArray → Prop
  | kept (s : NonconstantSlice) (arrayLiteral : Option Nat) :
      SlicedFor w b xs ⟨[.nonconstant s], arrayLiteral⟩
  | constant {id : Nat} {y : Bits} (h : w.Holds b id y) (hall : ∀ x ∈ xs, x = y) :
      SlicedFor w b xs ⟨[.literal id], none⟩
  | narrowed {slices : List Slice} {c : TernaryVector} {id : Nat} (h : 1 < slices.length)
      (hspells : Spells w b slices c) (hadmits : ∀ x ∈ xs, c.Admits x.toBools)
      (harray : w.Has b id (.array xs.length (.bits (c.length - numberOfKnownBits c)))
        (.node ((xs.map (narrowedElement c)).map .leaf))) :
      SlicedFor w b xs ⟨slices, some id⟩

/-- The narrowed literal is an array of narrowed elements. -/
theorem conforms_narrowed (hadmits : ∀ x ∈ xs, c.Admits x.toBools) :
    Value.Conforms (.node ((xs.map (narrowedElement c)).map .leaf))
      (.array xs.length (.bits (c.length - numberOfKnownBits c))) := by
  have hrel : ∀ ys : List Bits, (∀ x ∈ ys, c.Admits x.toBools) →
      Forall₂ Value.Conforms ((ys.map (narrowedElement c)).map LeafTree.leaf)
        (replicate ys.length (.bits (c.length - numberOfKnownBits c))) := by
    intro ys hys
    induction ys with
    | nil => exact .nil
    | cons y ys ih =>
      obtain ⟨hy, hys⟩ := forall_mem_cons.mp hys
      refine .cons (Value.conforms_leaf_bits.2 ?_) (ih hys)
      rw [narrowedElement, ofBools_width, length_narrowedBits hy]
  unfold Value.Conforms
  rw [IrType.shape, LeafTree.rel_node]
  have hshapes := hrel xs hadmits
  rw [← map_replicate, forall₂_map_right_iff]
  exact hshapes

/-- An array of bits. -/
theorem exists_bits_of_conforms {a : Value} (h : a.Conforms (.array size (.bits k))) :
    ∃ xs : List Bits, a = .node (xs.map .leaf) ∧ ∀ x ∈ xs, x.width = k := by
  obtain ⟨es, rfl, -⟩ := LeafTree.rel_node_right (show LeafTree.Rel _ a
    (.node (replicate size (IrType.bits k).shape)) from h)
  obtain ⟨-, hes⟩ := conforms_array h
  change ∀ e ∈ es, Value.Conforms e (.bits k) at hes
  clear h
  induction es with
  | nil => exact ⟨[], rfl, fun x hx => absurd hx not_mem_nil⟩
  | cons e es ih =>
    obtain ⟨he, hrest⟩ := forall_mem_cons.mp hes
    obtain ⟨x, rfl, hx⟩ := Value.conforms_bits he
    obtain ⟨xs, heq, hxs⟩ := ih hrest
    cases heq
    exact ⟨x :: xs, rfl, forall_mem_cons.mpr ⟨hx, hxs⟩⟩

/-- Slicing a literal array at its known bits, with or without splits. -/
theorem ensures_narrowLiteralArrayToSlices (hne : xs ≠ []) (hwidth : ∀ x ∈ xs, x.width = k)
    (splitsEnabled : Bool) (id : Nat) (b : ℚ) :
    w.Ensures (narrowLiteralArrayToSlices splitsEnabled id (xs.map .leaf)) fun w' sliced =>
      SlicedFor w' b xs sliced := by
  cases xs with
  | nil => exact absurd rfl hne
  | cons first rest =>
    obtain ⟨c, hrun, hlength, hadmits⟩ :=
      @exists_constantBits first (first :: rest) fun x hx =>
        (hwidth x hx).trans (hwidth first mem_cons_self).symm
    unfold narrowLiteralArrayToSlices
    refine ensures_lift (bitsVector_leaves (first :: rest)) ?_
    refine ensures_lift (a := first) rfl ?_
    refine ensures_lift hrun ?_
    dsimp only
    rw [← hlength]
    split
    · rename_i hknown
      have hfully : c.isFullyKnown = true := by
        rw [TernaryVector.isFullyKnown, all_eq_true]
        exact countP_eq_length.mp hknown
      refine ensures_bind (ensures_literal (ofBools c.toKnownBitsValues) b)
        fun w₁ literal h₁ hl => ?_
      refine ensures_pure fun w₂ h₂ => .constant (hl.mono h₂) fun x hx => ?_
      rw [← TernaryVector.eq_of_isFullyKnown hfully (hadmits x hx), ofBools_toBools]
    split
    · exact ensures_pure fun _ _ => .kept _ _
    split
    · exact ensures_pure fun _ _ => .kept _ _
    rename_i hall hzero _
    have hstart : Sliced w b ⟨[], [], .cleared⟩ [] := ⟨[], .nil, rfl, .inl rfl⟩
    refine ensures_bind (ensures_sliceBits hstart 0 c) fun w₁ s h₁ hs => ?_
    refine ensures_bind (ensures_finishKnownSlice hs) fun w₂ s' h₂ hs' => ?_
    obtain ⟨hs', hnone⟩ := hs'
    -- nothing is left that is not finished
    have hspells : Spells w₂ b (finishUnknownSlice s').slices c := by
      obtain ⟨⟨c', hspells, heq, -⟩, hwidth⟩ := hs'.finishUnknown
      have hknown : (finishUnknownSlice s').known = [] := by
        unfold finishUnknownSlice
        split
        · exact hnone
        · exact hnone
      rw [hknown, hwidth, nil_append] at heq
      rw [heq]
      simpa using hspells
    have hlt := hspells.one_lt_length hzero hall
    refine ensures_lift (a := ()) (by rw [decide_eq_true hlt]; rfl) ?_
    refine ensures_lift (a := LeafTree.node (((first :: rest).map (narrowedElement c)).map .leaf))
      (by rw [map_map]; rfl) ?_
    have hconf := conforms_narrowed hadmits
    refine ensures_bind (ensures_node (b := b) .nil (decide_eq_true hconf) rfl hconf)
      fun w₃ literal h₃ hl => ?_
    exact ensures_pure fun w₄ h₄ =>
      .narrowed hlt (hspells.mono (h₃.trans h₄)) hadmits (hl.mono h₄)

/-- Replacing every element by its slices returns and keeps all values. -/
theorem replaceElements_returns {sliced : SlicedArray}
    (hliteral : w.Has b literal (.array size (.bits k)) (.node (xs.map .leaf)))
    (hsliced : SlicedFor w (w.rank literal) xs sliced) :
    w.Returns (replaceElements literal sliced) := by
  have hreplace : ∀ replacement, Replaces w literal xs replacement →
      w.Returns (replaceIndices literal replacement (userIds w.graph literal) >>= fun _ =>
        return true) := by
    intro replacement hrep
    obtain ⟨_, w', hrun, hle⟩ :=
      replaceIndices_returns hliteral hrep fun u hu => uses_of_mem_userIds hu
    refine ⟨true, w', ?_, hle⟩
    show (replaceIndices literal replacement (userIds w.graph literal) w.graph >>= fun p => _) = _
    rw [hrun]
    rfl
  cases hsliced with
  | kept s arrayLiteral => exact ⟨false, w, rfl, le_refl w⟩
  | constant h hall =>
    refine hreplace _ fun w₁ h₁ b' index z y hb _ hy => emits_pure fun w₂ h₂ => ?_
    rw [hall y (mem_of_getElem? hy)]
    rw [h₁.rank literal hliteral.lt] at hb
    exact ((h.mono h₁).weaken hb.le).mono h₂
  | @narrowed slices c id h hspells hadmits harray =>
    cases slices with
    | nil => exact absurd h (Nat.not_lt_zero _)
    | cons s slices =>
      cases slices with
      | nil => exact absurd h (lt_irrefl _)
      | cons s' slices =>
        have hrep : Replaces w literal xs (arrayIndexValue id (s :: s' :: slices)) := by
          intro w₁ h₁ b' index z y hb hindex hy
          rw [h₁.rank literal hliteral.lt] at hb
          exact emits_arrayIndexValue hb.le (hspells.mono h₁) hadmits (harray.mono h₁)
            hindex hy
        cases s with
        | _ => exact hreplace _ hrep

/-- The narrowing of a literal returns, and every node and the return value keep their values,
whatever the values of the indices are. -/
theorem maybeNarrowLiteralArray_sound (w : World env args) (splitsEnabled : Bool) {id : Nat}
    {n : Node} (hn : w.graph.nodes[id]? = some n) :
    w.Returns (maybeNarrowLiteralArray splitsEnabled id) := by
  have hfalse : w.Returns (pure false : Build Bool) := ⟨false, w, rfl, le_refl w⟩
  obtain ⟨types, ops, v, hat⟩ := exists_at hn
  have heval := hat.eval
  have hconf := hat.conforms
  have hoperands := hat.operands
  have hverified := hat.verified
  have hhas := hat.has
  unfold Returns maybeNarrowLiteralArray
  rw [run_get, run_getNode hn]
  obtain ⟨kind, operands, type⟩ := n
  dsimp only at *
  split
  rotate_left
  · exact hfalse
  rename_i value size k
  split
  · exact hfalse
  split
  · exact hfalse
  rename_i hne
  split
  · exact hfalse
  cases types with
  | cons _ _ => simp [verifyNode] at hverified
  | nil =>
    cases hoperands
    cases heval
    obtain ⟨xs, rfl, hwidth⟩ := exists_bits_of_conforms hconf
    have hxs : xs ≠ [] := by
      rintro rfl
      exact hne rfl
    refine Returns.bind_ensures (ensures_narrowLiteralArrayToSlices hxs hwidth splitsEnabled id
      (w.rank id)) fun w₁ sliced h₁ hsliced => ?_
    refine replaceElements_returns (hhas.mono h₁) ?_
    rwa [h₁.rank id hhas.lt]

/-- An index into an array of three elements, whose bits differ at two positions. -/
def indexedLiteral : Function where
  params := [.bits 3]
  nodes := [⟨.param 0, [], .bits 3⟩,
    ⟨.literal (.node ([18, 22, 26].map fun k => .leaf (Bits.ofNat 5 k))), [], .array 3 (.bits 5)⟩,
    ⟨.arrayIndex, [1, 0], .bits 5⟩]
  returnValue := 2
  verified := by decide
  returnValue_lt := by decide

theorem run_indexedLiteral : ∃ vals, Interpreter.run (packageEnv []) indexedLiteral
    [.leaf (Bits.ofNat 3 7)] = .ok vals ∧ vals[2]? = some (.leaf (Bits.ofNat 5 26)) :=
  ⟨_, rfl, rfl⟩

/-- At an index out of bounds the rewritten graph returns the last element. -/
theorem maybeNarrowLiteralArray_sound_indexedLiteral :
    ∃ vals, ∃ hrun : Interpreter.run (packageEnv []) indexedLiteral
        [.leaf (Bits.ofNat 3 7)] = .ok vals,
      (World.ofRun hrun).Returns (maybeNarrowLiteralArray true 1) ∧
      ∃ g vals', maybeNarrowLiteralArray true 1 indexedLiteral.graph = .ok (true, g) ∧
        g.nodes[g.returnValue]?.map Node.kind = some .concat ∧
        Interpreter.visit (packageEnv []) [.leaf (Bits.ofNat 3 7)] [] g.nodes =
          .ok vals' ∧ vals'[g.returnValue]? = some (.leaf (Bits.ofNat 5 26)) := by
  obtain ⟨vals, hrun, -⟩ := run_indexedLiteral
  exact ⟨vals, hrun, maybeNarrowLiteralArray_sound (World.ofRun hrun) true rfl, _, _, rfl, rfl,
    rfl, rfl⟩

end Values

end Narrowing

end Xls

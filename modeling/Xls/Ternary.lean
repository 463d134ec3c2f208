import Xls.AbstractEvaluator

/-!
# Xls.Ternary

Three-valued bits (`xls/ir/ternary.h`) and the evaluator over them
(`xls/passes/ternary_evaluator.h`). A ternary value *admits* the bits it may
stand for; a vector admits a list of bits when it does so position by position.
-/

namespace Xls

open BoolList List

/-- `TernaryValue`. -/
inductive TernaryValue
  | knownZero
  | knownOne
  | unknown
  deriving DecidableEq, Repr

/-- A vector of ternary values, least significant first. -/
abbrev TernaryVector := List TernaryValue

namespace TernaryValue

/-- Whether the value may stand for the bit. -/
def Admits : TernaryValue → Bool → Prop
  | knownZero, b => b = false
  | knownOne, b => b = true
  | unknown, _ => True

instance (t : TernaryValue) (b : Bool) : Decidable (Admits t b) :=
  match t with
  | knownZero => inferInstanceAs (Decidable (b = false))
  | knownOne => inferInstanceAs (Decidable (b = true))
  | unknown => inferInstanceAs (Decidable True)

/-- `static_cast<TernaryValue>(bit)`. -/
def ofBool (b : Bool) : TernaryValue := if b then knownOne else knownZero

def isKnown (t : TernaryValue) : Bool := t != unknown

def not : TernaryValue → TernaryValue
  | knownZero => knownOne
  | knownOne => knownZero
  | unknown => unknown

def and (a b : TernaryValue) : TernaryValue :=
  if a = knownZero ∨ b = knownZero then knownZero
  else if a = knownOne ∧ b = knownOne then knownOne
  else unknown

def or (a b : TernaryValue) : TernaryValue :=
  if a = knownOne ∨ b = knownOne then knownOne
  else if a = knownZero ∧ b = knownZero then knownZero
  else unknown

/-- One position of `Intersection`: what both agree on. -/
def meet (a b : TernaryValue) : TernaryValue := if a = b then a else unknown

theorem admits_ofBool (b : Bool) : Admits (ofBool b) b := by
  cases b <;> rfl

variable {b : Bool} {t s : TernaryValue}

theorem eq_of_admits_ofBool {c : Bool} (h : Admits (ofBool b) c) : c = b := by
  cases b
  · exact h
  · exact h

theorem Admits.not (h : Admits t b) : Admits t.not (!b) := by
  cases t <;> cases b <;> simp_all [Admits, TernaryValue.not]

theorem Admits.and {a : Bool} (hs : Admits s a) (ht : Admits t b) : Admits (s.and t) (a && b) := by
  cases s <;> cases t <;> simp_all [Admits, TernaryValue.and]

theorem Admits.or {a : Bool} (hs : Admits s a) (ht : Admits t b) : Admits (s.or t) (a || b) := by
  cases s <;> cases t <;> simp_all [Admits, TernaryValue.or]

theorem Admits.meet_left (h : Admits s b) : Admits (meet s t) b := by
  unfold meet
  split
  · exact h
  · trivial

theorem Admits.meet_right (h : Admits t b) : Admits (meet s t) b := by
  unfold meet
  split
  · rename_i heq
    rw [heq]
    exact h
  · trivial

/-- A known value admits exactly the bit it reports. -/
theorem eq_of_isKnown (hk : t.isKnown = true) (h : Admits t b) : b = (t == knownOne) := by
  cases t
  · exact h
  · exact h
  · simp [isKnown] at hk

end TernaryValue

namespace TernaryVector

open TernaryValue (Admits)

/-- The vector may stand for the bits. -/
abbrev Admits (v : TernaryVector) (bs : List Bool) : Prop :=
  Forall₂ TernaryValue.Admits v bs

/-- `IsFullyKnown`. -/
def isFullyKnown (v : TernaryVector) : Bool := v.all TernaryValue.isKnown

/-- `ToKnownBitsValues`, as a list of bits. -/
def toKnownBitsValues (v : TernaryVector) : List Bool := v.map (· == .knownOne)

/-- `BitsToTernary`. -/
def ofBits (b : Bits) : TernaryVector := b.toBools.map TernaryValue.ofBool

/-- `Intersection` of vectors of one length. -/
def intersection (a b : TernaryVector) : TernaryVector := zipWith TernaryValue.meet a b

/-- `AllBitsValues`: the values the vector admits, in increasing order. -/
def allBitsValues : TernaryVector → List (List Bool)
  | [] => [[]]
  | t :: ts =>
    (allBitsValues ts).flatMap fun v =>
      match t with
      | .knownZero => [false :: v]
      | .knownOne => [true :: v]
      | .unknown => [false :: v, true :: v]

theorem admits_ofBits (b : Bits) : Admits (ofBits b) b.toBools := by
  unfold ofBits
  generalize b.toBools = l
  induction l with
  | nil => exact Forall₂.nil
  | cons x xs ih => exact Forall₂.cons (TernaryValue.admits_ofBool x) ih

variable {bs : List Bool} {a b : TernaryVector} {v : TernaryVector}

/-- A fully known vector admits only its known values. -/
theorem eq_of_isFullyKnown (hk : isFullyKnown v = true) (h : Admits v bs) :
    bs = toKnownBitsValues v := by
  induction h with
  | nil => rfl
  | cons hab _ ih =>
    simp only [isFullyKnown, all_cons, Bool.and_eq_true] at hk
    rw [toKnownBitsValues, map_cons, ← TernaryValue.eq_of_isKnown hk.1 hab]
    exact congrArg _ (ih hk.2)

/-- All values that the vector admits, once each. -/
theorem mem_allBitsValues : bs ∈ allBitsValues v ↔ Admits v bs := by
  induction v generalizing bs with
  | nil => simp [allBitsValues]
  | cons t ts ih =>
    simp only [allBitsValues, mem_flatMap, forall₂_cons_left_iff]
    constructor
    · rintro ⟨v, hv, hbs⟩
      cases t <;> simp only [mem_cons, not_mem_nil, or_false] at hbs
      · exact ⟨false, v, rfl, ih.1 hv, hbs⟩
      · exact ⟨true, v, rfl, ih.1 hv, hbs⟩
      · rcases hbs with hbs | hbs
        · exact ⟨false, v, trivial, ih.1 hv, hbs⟩
        · exact ⟨true, v, trivial, ih.1 hv, hbs⟩
    · rintro ⟨b, v, hb, hv, rfl⟩
      refine ⟨v, ih.2 hv, ?_⟩
      cases t
      · obtain rfl : b = false := hb
        simp
      · obtain rfl : b = true := hb
        simp
      · cases b <;> simp

theorem Admits.intersection_left (h : Admits a bs) (hlen : a.length = b.length) :
    Admits (intersection a b) bs := by
  induction h generalizing b with
  | nil => exact Forall₂.nil
  | cons hab _ ih =>
    cases b with
    | nil => simp at hlen
    | cons t ts => exact Forall₂.cons hab.meet_left (ih (Nat.succ.inj hlen))

theorem Admits.intersection_right (h : Admits b bs) (hlen : a.length = b.length) :
    Admits (intersection a b) bs := by
  induction h generalizing a with
  | nil =>
    obtain rfl : a = [] := eq_nil_of_length_eq_zero hlen
    exact Forall₂.nil
  | cons hab _ ih =>
    cases a with
    | nil => simp at hlen
    | cons t ts => exact Forall₂.cons hab.meet_right (ih (Nat.succ.inj hlen))

@[simp] theorem length_intersection (a b : TernaryVector) :
    (intersection a b).length = min a.length b.length :=
  length_zipWith

/-- `AllBitsValues` enumerates from the smallest value to the largest. -/
theorem pairwise_allBitsValues (v : TernaryVector) :
    (allBitsValues v).Pairwise fun a b => toNat a < toNat b := by
  induction v with
  | nil => exact pairwise_singleton _ _
  | cons t ts ih =>
    rw [allBitsValues, pairwise_flatMap]
    constructor
    · intro u _
      cases t <;> simp
    · refine ih.imp ?_
      intro a b hab x hx y hy
      have hle : ∀ z u, z ∈ (match t, u with
          | .knownZero, v => [false :: v]
          | .knownOne, v => [true :: v]
          | .unknown, v => [false :: v, true :: v]) →
          2 * toNat u ≤ toNat z ∧
            toNat z ≤ 2 * toNat u + 1 := by
        intro z u hz
        cases t with
        | knownZero =>
          obtain rfl := mem_singleton.1 hz
          simp
        | knownOne =>
          obtain rfl := mem_singleton.1 hz
          simp
          omega
        | unknown =>
          rcases mem_cons.1 hz with rfl | hz
          · simp
          · obtain rfl := mem_singleton.1 hz
            simp
            omega
      have hxa := hle x a hx
      have hyb := hle y b hy
      omega

/-- `UpdateWithUnion` on one value; conflicting known values are an error. -/
def unionValue (lhs rhs : TernaryValue) : Option TernaryValue :=
  if rhs = .unknown then some lhs
  else if lhs = .unknown then some rhs
  else if lhs = rhs then some lhs
  else none

/-- `UpdateWithUnion` on vectors of one length. -/
def updateWithUnion : TernaryVector → TernaryVector → Option TernaryVector
  | [], [] => some []
  | a :: as, b :: bs =>
    match unionValue a b, updateWithUnion as bs with
    | some c, some cs => some (c :: cs)
    | _, _ => none
  | _, _ => none

theorem unionValue_of_admits {s t : TernaryValue} {b : Bool} (hs : TernaryValue.Admits s b)
    (ht : TernaryValue.Admits t b) : ∃ u, unionValue s t = some u ∧ TernaryValue.Admits u b := by
  cases s <;> cases t <;> cases b <;> simp_all [TernaryValue.Admits, unionValue]

/-- Vectors that admit the same bits have no conflict, and their union admits the
bits. -/
theorem Admits.updateWithUnion (ha : Admits a bs) (hb : Admits b bs) :
    ∃ c, TernaryVector.updateWithUnion a b = some c ∧ Admits c bs := by
  induction ha generalizing b with
  | nil =>
    cases hb
    exact ⟨[], rfl, Forall₂.nil⟩
  | cons hx _ ih =>
    cases hb with
    | cons hy hb =>
      obtain ⟨u, hu, hub⟩ := unionValue_of_admits hx hy
      obtain ⟨us, hus, husb⟩ := ih hb
      exact ⟨u :: us, by rw [TernaryVector.updateWithUnion, hu, hus], Forall₂.cons hub husb⟩

end TernaryVector

/-! ### The evaluator -/

/-- `TernaryEvaluator`. -/
def ternaryEvaluator : Evaluator Unit TernaryValue where
  one := .knownOne
  zero := .knownZero
  not a := pure a.not
  and a b := pure (a.and b)
  or a b := pure (a.or b)
  isNotZero a := a != .knownZero

/-- The result of an evaluation that needs no state. -/
def Grow.eval {α : Type} (c : EvalM Unit α) : Result α := (c.run ()).map Prod.fst

/-- A result that is computed is returned. -/
theorem Grow.returns_of_eval {α : Type} {c : EvalM Unit α} {a : α} (h : Grow.eval c = .ok a) :
    Grow.Returns () c a := by
  unfold Grow.eval at h
  cases hr : c.run () with
  | error e =>
    rw [hr] at h
    cases h
  | ok p =>
    rw [hr] at h
    cases h
    exact ⟨(), p.2, hr, le_refl _⟩

theorem Grow.Ensures.eval {α : Type} {c : EvalM Unit α} {P : Unit → α → Prop}
    (h : Grow.Ensures () c P) : ∃ a, Grow.eval c = .ok a ∧ P () a := by
  obtain ⟨a, s', hr, ha⟩ := h () (le_refl _)
  exact ⟨a, by simp [Grow.eval, hr, Except.map], ha⟩

/-- The operations on ternary values are sound for the bits they admit. -/
theorem ternaryEvaluator_sound : ternaryEvaluator.Sound () TernaryValue.Admits where
  one := rfl
  zero := rfl
  not ha hr := by
    rw [Grow.returns_pure hr]
    exact ha.not
  and ha hb hr := by
    rw [Grow.returns_pure hr]
    exact ha.and hb
  or ha hb hr := by
    rw [Grow.returns_pure hr]
    exact ha.or hb
  isNotZero {a} ha := by
    cases a
    · exact absurd ha (by simp [TernaryValue.Admits])
    · rfl
    · rfl

/-- Every ternary value is valid. -/
def AnyTernary (_ : Unit) (_ : TernaryValue) : Prop := True

theorem anyTernary_all (v : TernaryVector) : ∀ a ∈ v, AnyTernary () a := fun _ _ => trivial

theorem ternaryEvaluator_total : ternaryEvaluator.TotalOps AnyTernary where
  mono _ _ := trivial
  one _ := trivial
  zero _ := trivial
  not _ := Grow.ensures_pure fun _ _ => trivial
  and _ _ := Grow.ensures_pure fun _ _ => trivial
  or _ _ := Grow.ensures_pure fun _ _ => trivial

end Xls

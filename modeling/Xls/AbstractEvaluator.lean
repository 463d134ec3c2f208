import Xls.Bits
import Xls.Status
import Xls.Lib.Grow

/-!
# Xls.AbstractEvaluator

`xls/ir/abstract_evaluator.h`: common operations as compositions of `One`,
`Zero`, `Not`, `And` and `Or` over an arbitrary element type. The elements may
live in a structure that grows while they are combined (a decision diagram), so
the operations run in `Grow`.

`Evaluator.Sound` says that the five primitives respect a relation between
elements and booleans. Every composite operation then respects it too, and its
boolean meaning is the corresponding operation on `Bits`; the two are proved
together, operation by operation.
-/

namespace Xls

open BoolList Grow List

/-- Computations of an evaluator whose elements live in `S`. -/
abbrev EvalM (S : Type) [Preorder S] := Grow Failure S

/-- The primitives a derived evaluator provides. `isNotZero e` is the test
`e != Zero()`, which the selects use. -/
structure Evaluator (S E : Type) [Preorder S] where
  one : E
  zero : E
  not : E → EvalM S E
  and : E → E → EvalM S E
  or : E → E → EvalM S E
  isNotZero : E → Bool

namespace Evaluator

variable {S E : Type} [Preorder S]

/-- The primitives respect `R` in every run that ends below `F`. -/
structure Sound (ev : Evaluator S E) (F : S) (R : E → Bool → Prop) : Prop where
  one : R ev.one true
  zero : R ev.zero false
  not : ∀ {a r x}, R a x → Grow.Returns F (ev.not a) r → R r (!x)
  and : ∀ {a b r x y}, R a x → R b y → Grow.Returns F (ev.and a b) r → R r (x && y)
  or : ∀ {a b r x y}, R a x → R b y → Grow.Returns F (ev.or a b) r → R r (x || y)
  isNotZero : ∀ {a}, R a true → ev.isNotZero a = true

/-- The primitives return valid elements for valid ones, where validity depends on
the state and is kept when it grows. -/
structure TotalOps (ev : Evaluator S E) (V : S → E → Prop) : Prop where
  mono : ∀ {s t a}, s ≤ t → V s a → V t a
  one : ∀ s, V s ev.one
  zero : ∀ s, V s ev.zero
  not : ∀ {s a}, V s a → Grow.Ensures s (ev.not a) V
  and : ∀ {s a b}, V s a → V s b → Grow.Ensures s (ev.and a b) V
  or : ∀ {s a b}, V s a → V s b → Grow.Ensures s (ev.or a b) V

/-! ### Operations on single elements -/

def xor (ev : Evaluator S E) (a b : E) : EvalM S E := do
  let o ← ev.or a b
  let n ← ev.and a b
  let n' ← ev.not n
  ev.and o n'

/-- `HalfAdder`: sum and carry. -/
def halfAdder (ev : Evaluator S E) (a b : E) : EvalM S (E × E) := do
  let carry ← ev.and a b
  let o ← ev.or a b
  let n ← ev.not carry
  let sum ← ev.and o n
  return (sum, carry)

/-- `FullAdder`: sum and carry. -/
def fullAdder (ev : Evaluator S E) (a b carryIn : E) : EvalM S (E × E) := do
  let first ← ev.halfAdder a b
  let second ← ev.halfAdder first.1 carryIn
  let carry ← ev.or first.2 second.2
  return (second.1, carry)

/-- The step of `Equals`: `Or(And(a, b), And(Not(a), Not(b)))`. -/
def xnor (ev : Evaluator S E) (a b : E) : EvalM S E := do
  let both ← ev.and a b
  let na ← ev.not a
  let nb ← ev.not b
  let neither ← ev.and na nb
  ev.or both neither

/-! ### Vectors -/

/-- `BitsToVector`. -/
def bitsToVector (ev : Evaluator S E) (b : Bits) : List E :=
  b.toBools.map fun bit => if bit then ev.one else ev.zero

/-- `Vector(n, e)` of a constant bit. -/
def constVector (ev : Evaluator S E) (n : Nat) (bit : Bool) : List E :=
  replicate n (if bit then ev.one else ev.zero)

def bitwiseNot (ev : Evaluator S E) (input : List E) : EvalM S (List E) :=
  Grow.mapList ev.not input

/-- Combine `result[j]` with `input[j]`; reading past the end of `input` is
undefined. -/
def zipOp (f : E → E → EvalM S E) : List E → List E → EvalM S (List E)
  | [], _ => pure []
  | _ :: _, [] => fail .check
  | a :: as, b :: bs => do
    let r ← f a b
    let rs ← zipOp f as bs
    return r :: rs

/-- `NaryOp`. -/
def naryOp (f : E → E → EvalM S E) : List (List E) → EvalM S (List E)
  | [] => fail .check
  | first :: rest => foldList (zipOp f) first rest

def bitwiseAnd (ev : Evaluator S E) (inputs : List (List E)) : EvalM S (List E) :=
  naryOp ev.and inputs

def bitwiseOr (ev : Evaluator S E) (inputs : List (List E)) : EvalM S (List E) :=
  naryOp ev.or inputs

def bitwiseXor (ev : Evaluator S E) (inputs : List (List E)) : EvalM S (List E) :=
  naryOp ev.xor inputs

/-- `Concat`: the first input is the most significant. -/
def concat (inputs : List (List E)) : List E := inputs.reverse.flatten

def bitSlice (input : List E) (start width : Nat) : EvalM S (List E) := do
  guardThat .check (decide (start + width ≤ input.length))
  return (input.drop start).take width

def zeroExtend (ev : Evaluator S E) (input : List E) (newWidth : Nat) : EvalM S (List E) := do
  guardThat .check (decide (input.length ≤ newWidth))
  return concat [ev.constVector (newWidth - input.length) false, input]

/-- `SignExtend`; the input must have a sign bit. -/
def signExtend (input : List E) (newWidth : Nat) : EvalM S (List E) :=
  match input.getLast? with
  | none => fail .check
  | some sign => do
    guardThat .check (decide (input.length ≤ newWidth))
    return concat [replicate (newWidth - input.length) sign, input]

def gate (ev : Evaluator S E) (a : E) (b : List E) : EvalM S (List E) := do
  let mask ← signExtend [a] b.length
  ev.bitwiseAnd [mask, b]

def equals (ev : Evaluator S E) (a b : List E) : EvalM S E := do
  guardThat .check (a.length == b.length)
  foldList (fun result p => do
    let same ← ev.xnor p.1 p.2
    ev.and result same) ev.one (a.zip b)

/-- One round of `ULessThan`, on `(result, upper_bits_lte)`. -/
def uLessThanStep (ev : Evaluator S E) (acc : E × E) (p : E × E) : EvalM S (E × E) := do
  let na ← ev.not p.1
  let lt ← ev.and na p.2
  let here ← ev.and acc.2 lt
  let result ← ev.or acc.1 here
  let na' ← ev.not p.1
  let le ← ev.or na' p.2
  let lte ← ev.and acc.2 le
  return (result, lte)

/-- `ULessThan`: from the most significant bit down. -/
def uLessThan (ev : Evaluator S E) (a b : List E) : EvalM S E := do
  guardThat .check (a.length == b.length)
  let acc ← foldList ev.uLessThanStep (ev.zero, ev.one) (a.zip b).reverse
  return acc.1

/-- `SLessThan`; both operands must have a sign bit. -/
def sLessThan (ev : Evaluator S E) (a b : List E) : EvalM S E :=
  match a.getLast?, b.getLast? with
  | some sa, some sb => do
    let nb ← ev.not sb
    let aNeg ← ev.and sa nb
    let na ← ev.not sa
    let bNeg ← ev.and na sb
    let notB ← ev.not bNeg
    let lt ← ev.uLessThan a b
    let rest ← ev.and notB lt
    ev.or aNeg rest
  | _, _ => fail .check

/-- One round of the one-hot loops, on `(all_zero, any_one, result)`. -/
def oneHotStep (ev : Evaluator S E) (acc : E × E × List E) (e : E) :
    EvalM S (E × E × List E) := do
  let bit ← ev.and acc.1 e
  let n ← ev.not e
  let allZero ← ev.and acc.1 n
  let anyOne ← ev.or acc.2.1 e
  return (allZero, anyOne, acc.2.2 ++ [bit])

def oneHotLsbToMsb (ev : Evaluator S E) (input : List E) : EvalM S (List E) := do
  let acc ← foldList ev.oneHotStep (ev.one, ev.zero, []) input
  return acc.2.2 ++ [acc.1]

def oneHotMsbToLsb (ev : Evaluator S E) (input : List E) : EvalM S (List E) := do
  let acc ← foldList ev.oneHotStep (ev.one, ev.zero, []) input.reverse
  return acc.2.2.reverse ++ [acc.1]

def andReduce (ev : Evaluator S E) (a : List E) : EvalM S E := foldList ev.and ev.one a

def orReduce (ev : Evaluator S E) (a : List E) : EvalM S E := foldList ev.or ev.zero a

/-- One round of `XorReduce`. -/
def xorReduceStep (ev : Evaluator S E) (result e : E) : EvalM S E := do
  let nr ← ev.not result
  let l ← ev.and nr e
  let ne ← ev.not e
  let r ← ev.and result ne
  ev.or l r

def xorReduce (ev : Evaluator S E) (a : List E) : EvalM S E :=
  foldList ev.xorReduceStep ev.zero a

/-! ### Soundness -/

/-- A vector of elements stands for a list of bits. -/
abbrev Vec (R : E → Bool → Prop) (v : List E) (bs : List Bool) : Prop := Forall₂ R v bs

variable {α β : Type} {P : α → β → Prop} {R : E → Bool → Prop}

theorem forall₂_zip {γ δ : Type} {Q : γ → δ → Prop} {as : List α} {bs : List β} {cs : List γ}
    {ds : List δ} (h1 : Forall₂ P as bs) (h2 : Forall₂ Q cs ds) :
    Forall₂ (fun p q => P p.1 q.1 ∧ Q p.2 q.2) (as.zip cs) (bs.zip ds) := by
  induction h1 generalizing cs ds with
  | nil => exact Forall₂.nil
  | cons hab _ ih =>
    cases h2 with
    | nil => exact Forall₂.nil
    | cons hcd h2 => exact Forall₂.cons ⟨hab, hcd⟩ (ih h2)

theorem forall₂_replicate {a : α} {b : β} (h : P a b) (n : Nat) :
    Forall₂ P (replicate n a) (replicate n b) := by
  induction n with
  | zero => exact Forall₂.nil
  | succ n ih => exact Forall₂.cons h ih

/-- The last elements of two related lists are related. -/
theorem forall₂_getLast? {as : List α} {bs : List β} (h : Forall₂ P as bs) {a : α}
    (ha : as.getLast? = some a) : ∃ b, bs.getLast? = some b ∧ P a b := by
  obtain ⟨init, rfl⟩ := getLast?_eq_some_iff.1 ha
  have hrev := rel_reverse h
  rw [reverse_append, reverse_singleton, singleton_append] at hrev
  cases hb : bs.reverse with
  | nil =>
    rw [hb] at hrev
    cases hrev
  | cons b t =>
    rw [hb] at hrev
    cases hrev with
    | cons hab _ =>
      refine ⟨b, getLast?_eq_some_iff.2 ⟨t.reverse, ?_⟩, hab⟩
      rw [← reverse_reverse bs, hb, reverse_cons]

theorem vec_append {u v : List E} {as bs : List Bool} (hu : Vec R u as) (hv : Vec R v bs) :
    Vec R (u ++ v) (as ++ bs) :=
  rel_append hu hv

theorem vec_singleton {e : E} {b : Bool} (h : R e b) : Vec R [e] [b] :=
  Forall₂.cons h Forall₂.nil

section Sound

open Grow (Returns returns_bind returns_pure)

variable {ev : Evaluator S E} {F : S} {R : E → Bool → Prop}

theorem Sound.const (h : ev.Sound F R) (b : Bool) : R (if b then ev.one else ev.zero) b := by
  cases b
  · exact h.zero
  · exact h.one

theorem Sound.bitsToVector (h : ev.Sound F R) (b : Bits) : Vec R (ev.bitsToVector b) b.toBools := by
  unfold Evaluator.bitsToVector
  generalize b.toBools = l
  induction l with
  | nil => exact Forall₂.nil
  | cons x xs ih => exact Forall₂.cons (h.const x) ih

theorem Sound.constVector (h : ev.Sound F R) (n : Nat) (b : Bool) :
    Vec R (ev.constVector n b) (replicate n b) :=
  forall₂_replicate (h.const b) n

variable {r v : List E} {x : Bool} {bs xs ys : List Bool} {vs : List (List E)}
  {a b : E} {y : Bool} {f : E → E → EvalM S E} {g : Bool → Bool → Bool} {as : List E}

section

variable {r : E} (h : ev.Sound F R) (ha : R a x) (hb : R b y)
include h ha hb

theorem Sound.xor (hr : Returns F (ev.xor a b) r) : R r (x ^^ y) := by
  obtain ⟨o, ho, hr⟩ := returns_bind hr
  obtain ⟨n, hn, hr⟩ := returns_bind hr
  obtain ⟨n', hn', hr⟩ := returns_bind hr
  have hres := h.and (h.or ha hb ho) (h.not (h.and ha hb hn) hn') hr
  have heq : ((x || y) && !(x && y)) = (x ^^ y) := by cases x <;> cases y <;> rfl
  rwa [heq] at hres

theorem Sound.xnor (hr : Returns F (ev.xnor a b) r) : R r (x == y) := by
  obtain ⟨both, hboth, hr⟩ := returns_bind hr
  obtain ⟨na, hna, hr⟩ := returns_bind hr
  obtain ⟨nb, hnb, hr⟩ := returns_bind hr
  obtain ⟨neither, hneither, hr⟩ := returns_bind hr
  have hres := h.or (h.and ha hb hboth) (h.and (h.not ha hna) (h.not hb hnb) hneither) hr
  have heq : ((x && y) || (!x && !y)) = (x == y) := by cases x <;> cases y <;> rfl
  rwa [heq] at hres

/-- The sum and the carry of two bits. -/
theorem Sound.halfAdder {r : E × E} (hr : Returns F (ev.halfAdder a b) r) :
    R r.1 (x ^^ y) ∧ R r.2 (x && y) := by
  obtain ⟨carry, hcarry, hr⟩ := returns_bind hr
  obtain ⟨o, ho, hr⟩ := returns_bind hr
  obtain ⟨n, hn, hr⟩ := returns_bind hr
  obtain ⟨sum, hsum, hr⟩ := returns_bind hr
  rw [returns_pure hr]
  have hc := h.and ha hb hcarry
  have hs := h.and (h.or ha hb ho) (h.not hc hn) hsum
  have heq : ((x || y) && !(x && y)) = (x ^^ y) := by cases x <;> cases y <;> rfl
  rw [heq] at hs
  exact ⟨hs, hc⟩

end

/-- The carry of a full adder. -/
def carryOf (x y c : Bool) : Bool := (x && y) || ((x ^^ y) && c)

theorem carryOf_spec (x y c : Bool) :
    x.toNat + y.toNat + c.toNat = (x ^^ y ^^ c).toNat + 2 * (carryOf x y c).toNat := by
  cases x <;> cases y <;> cases c <;> rfl

theorem Sound.fullAdder (h : ev.Sound F R) {c : E} {z : Bool} (ha : R a x) (hb : R b y) (hc : R c z)
    {r : E × E} (hr : Returns F (ev.fullAdder a b c) r) :
    R r.1 (x ^^ y ^^ z) ∧ R r.2 (carryOf x y z) := by
  obtain ⟨first, hfirst, hr⟩ := returns_bind hr
  obtain ⟨second, hsecond, hr⟩ := returns_bind hr
  obtain ⟨carry, hcarry, hr⟩ := returns_bind hr
  rw [returns_pure hr]
  obtain ⟨h1, h2⟩ := h.halfAdder ha hb hfirst
  obtain ⟨h3, h4⟩ := h.halfAdder h1 hc hsecond
  exact ⟨h3, h.or h2 h4 hcarry⟩

theorem Sound.bitwiseNot (h : ev.Sound F R) (hv : Vec R v bs) (hr : Returns F (ev.bitwiseNot v) r) :
    Vec R r (bs.map Bool.not) := by
  refine returns_mapList ?_ hv hr
  intro a x e ha he
  exact h.not ha he

/-- Zipping with a sound operation is zipping with the function it stands for. -/
theorem zipOp_sound (hf : ∀ a b r x y, R a x → R b y → Returns F (f a b) r → R r (g x y))
    {bs : List E} (ha : Vec R as xs) (hb : Vec R bs ys) (hr : Returns F (zipOp f as bs) r) :
    Vec R r (zipWith g xs ys) := by
  induction ha generalizing bs ys r with
  | nil =>
    rw [returns_pure hr]
    exact Forall₂.nil
  | cons hax _ ih =>
    cases hb with
    | nil => exact (not_returns_fail hr).elim
    | cons hby hb =>
      obtain ⟨e, he, hr⟩ := returns_bind hr
      obtain ⟨es, hes, hr⟩ := returns_bind hr
      rw [returns_pure hr]
      exact Forall₂.cons (hf _ _ _ _ _ hax hby he) (ih hb hes)

/-- The boolean meaning of `NaryOp`: combine the inputs from left to right. -/
def naryBits (g : Bool → Bool → Bool) : List (List Bool) → List Bool
  | [] => []
  | first :: rest => rest.foldl (zipWith g) first

theorem naryOp_sound (hf : ∀ a b r x y, R a x → R b y → Returns F (f a b) r → R r (g x y))
    {bs : List (List Bool)} (hv : Forall₂ (Vec R) vs bs) (hr : Returns F (naryOp f vs) r) :
    Vec R r (naryBits g bs) := by
  cases hv with
  | nil => exact (not_returns_fail hr).elim
  | cons hfirst hrest =>
    refine returns_foldList ?_ hrest hfirst hr
    intro a b v x e hacc hx hret
    exact zipOp_sound hf hacc hx hret

theorem Sound.bitwiseAnd (h : ev.Sound F R) {bs : List (List Bool)}
    (hv : Forall₂ (Vec R) vs bs) (hr : Returns F (ev.bitwiseAnd vs) r) :
    Vec R r (naryBits Bool.and bs) :=
  naryOp_sound (fun _ _ _ _ _ => h.and) hv hr

theorem Sound.bitwiseOr (h : ev.Sound F R) {bs : List (List Bool)} (hv : Forall₂ (Vec R) vs bs)
    (hr : Returns F (ev.bitwiseOr vs) r) : Vec R r (naryBits Bool.or bs) :=
  naryOp_sound (fun _ _ _ _ _ => h.or) hv hr

theorem Sound.bitwiseXor (h : ev.Sound F R) {bs : List (List Bool)}
    (hv : Forall₂ (Vec R) vs bs) (hr : Returns F (ev.bitwiseXor vs) r) :
    Vec R r (naryBits Bool.xor bs) :=
  naryOp_sound (fun _ _ _ _ _ => h.xor) hv hr

theorem concat_sound {bs : List (List Bool)} (hv : Forall₂ (Vec R) vs bs) :
    Vec R (concat vs) bs.reverse.flatten := by
  unfold concat
  induction hv with
  | nil => exact Forall₂.nil
  | cons hx _ ih =>
    rw [reverse_cons, reverse_cons, flatten_append, flatten_append]
    refine rel_append ih ?_
    simpa using hx

theorem bitSlice_sound (hv : Vec R v bs) {start width : Nat}
    (hr : Returns F (bitSlice v start width) r) :
    start + width ≤ bs.length ∧ Vec R r ((bs.drop start).take width) := by
  obtain ⟨u, hu, hr⟩ := returns_bind hr
  have hle := returns_guardThat hu
  rw [returns_pure hr]
  rw [decide_eq_true_eq, hv.length_eq] at hle
  exact ⟨hle, forall₂_take _ (forall₂_drop _ hv)⟩

theorem Sound.zeroExtend (h : ev.Sound F R) (hv : Vec R v bs) {w : Nat}
    (hr : Returns F (ev.zeroExtend v w) r) :
    bs.length ≤ w ∧ Vec R r (bs ++ replicate (w - bs.length) false) := by
  obtain ⟨u, hu, hr⟩ := returns_bind hr
  have hle := returns_guardThat hu
  rw [returns_pure hr]
  rw [decide_eq_true_eq, hv.length_eq] at hle
  refine ⟨hle, ?_⟩
  rw [hv.length_eq]
  simpa [concat] using rel_append hv (h.constVector (w - bs.length) false)

/-- The sign is the last bit of the vector, and the result is never shorter than the vector. -/
theorem signExtend_sound (hv : Vec R v bs) {w : Nat} (hr : Returns F (signExtend v w) r) :
    ∃ sign, bs.getLast? = some sign ∧ bs.length ≤ w ∧
      Vec R r (bs ++ replicate (w - bs.length) sign) := by
  unfold signExtend at hr
  cases hl : v.getLast? with
  | none =>
    rw [hl] at hr
    exact (not_returns_fail hr).elim
  | some e =>
    rw [hl] at hr
    obtain ⟨u, hu, hr⟩ := returns_bind hr
    have hle := returns_guardThat hu
    rw [returns_pure hr]
    rw [decide_eq_true_eq, hv.length_eq] at hle
    obtain ⟨sign, hsign, hs⟩ := forall₂_getLast? hv hl
    refine ⟨sign, hsign, hle, ?_⟩
    rw [hv.length_eq]
    simpa [concat] using rel_append hv (forall₂_replicate hs (w - bs.length))

section

variable (h : ev.Sound F R)
include h

/-- Gating is a conjunction with every bit. -/
theorem Sound.gate (ha : R a x) (hv : Vec R v bs) (hr : Returns F (ev.gate a v) r) :
    Vec R r (bs.map (x && ·)) := by
  obtain ⟨mask, hmask, hr⟩ := returns_bind hr
  obtain ⟨sign, hsign, hle, hm⟩ := signExtend_sound (Forall₂.cons ha Forall₂.nil) hmask
  obtain rfl : x = sign := by simpa using hsign
  rw [hv.length_eq] at hm hle
  have hres := h.bitwiseAnd (Forall₂.cons hm (Forall₂.cons hv Forall₂.nil)) hr
  have hmask' : [x] ++ replicate (bs.length - [x].length) x = replicate bs.length x := by
    have hpos : 1 ≤ bs.length := by simpa using hle
    rw [length_singleton, singleton_append, ← replicate_succ, Nat.sub_add_cancel hpos]
  rw [hmask'] at hres
  have heq : naryBits Bool.and [replicate bs.length x, bs] = bs.map (x && ·) := by
    simp only [naryBits, foldl_cons, foldl_nil]
    clear hr hres hm hmask' hv hle
    induction bs with
    | nil => rfl
    | cons b bs ih =>
      rw [length_cons, replicate_succ, zipWith_cons_cons, ih, map_cons]
  rwa [heq] at hres

/-- Equality is only answered for vectors of one length. -/
theorem Sound.equals {bs : List E} (ha : Vec R as xs) (hb : Vec R bs ys) {r : E}
    (hr : Returns F (ev.equals as bs) r) : xs.length = ys.length ∧ R r (decide (xs = ys)) := by
  obtain ⟨u, hu, hr⟩ := returns_bind hr
  have hlen := returns_guardThat hu
  rw [beq_iff_eq, ha.length_eq, hb.length_eq] at hlen
  refine ⟨hlen, ?_⟩
  have hfold : R r ((xs.zip ys).foldl (fun acc p => acc && (p.1 == p.2)) true) := by
    refine returns_foldList ?_ (forall₂_zip ha hb) h.one hr
    intro a b p q e hab hpq he
    obtain ⟨same, hsame, he⟩ := returns_bind he
    exact h.and hab (h.xnor hpq.1 hpq.2 hsame) he
  have heq : ∀ (xs ys : List Bool) (acc : Bool), xs.length = ys.length →
      (xs.zip ys).foldl (fun acc p => acc && (p.1 == p.2)) acc = (acc && decide (xs = ys)) := by
    intro xs
    induction xs with
    | nil =>
      intro ys acc hl
      obtain rfl : ys = [] := eq_nil_of_length_eq_zero hl.symm
      simp
    | cons x xs ih =>
      intro ys acc hl
      cases ys with
      | nil => simp at hl
      | cons y ys =>
        rw [zip_cons_cons, foldl_cons, ih ys _ (Nat.succ.inj hl)]
        cases x <;> cases y <;> simp
  rw [heq xs ys true hlen, Bool.true_and] at hfold
  exact hfold

/-- An unsigned comparison is one of the numbers that the vectors stand for. -/
theorem Sound.uLessThan {bs : List E} (ha : Vec R as xs) (hb : Vec R bs ys) {r : E}
    (hr : Returns F (ev.uLessThan as bs) r) :
    xs.length = ys.length ∧ R r (decide (BoolList.toNat xs < BoolList.toNat ys)) := by
  obtain ⟨u, hu, hr⟩ := returns_bind hr
  have hlen := returns_guardThat hu
  rw [beq_iff_eq, ha.length_eq, hb.length_eq] at hlen
  refine ⟨hlen, ?_⟩
  obtain ⟨acc, hacc, hr⟩ := returns_bind hr
  rw [returns_pure hr, ← (foldl_lessStep_reverse_zip hlen).1]
  refine (returns_foldList (Q := fun p q => R p.1 q.1 ∧ R p.2 q.2)
    (g := lessStep) ?_ (rel_reverse (forall₂_zip ha hb)) (b := (false, true))
    ⟨h.zero, h.one⟩ hacc).1
  intro a b p q e hab hpq he
  obtain ⟨na, hna, he⟩ := returns_bind he
  obtain ⟨lt, hlt, he⟩ := returns_bind he
  obtain ⟨here, hhere, he⟩ := returns_bind he
  obtain ⟨result, hresult, he⟩ := returns_bind he
  obtain ⟨na', hna', he⟩ := returns_bind he
  obtain ⟨le, hle, he⟩ := returns_bind he
  obtain ⟨lte, hlte, he⟩ := returns_bind he
  rw [returns_pure he]
  exact ⟨h.or hab.1 (h.and hab.2 (h.and (h.not hpq.1 hna) hpq.2 hlt) hhere) hresult,
    h.and hab.2 (h.or (h.not hpq.1 hna') hpq.2 hle) hlte⟩

section

variable (hv : Vec R v bs)
include hv

/-- The loop of the one-hot operation: the first component says whether no bit was set yet. -/
theorem Sound.oneHotFold {acc : E × E × List E}
    (hr : Returns F (foldList ev.oneHotStep (ev.one, ev.zero, []) v) acc) :
    R acc.1 (bs.foldl BoolList.oneHotStep (true, [])).1 ∧
      Vec R acc.2.2 (bs.foldl BoolList.oneHotStep (true, [])).2 := by
  refine returns_foldList (Q := fun p q => R p.1 q.1 ∧ Vec R p.2.2 q.2)
    (g := BoolList.oneHotStep) ?_ hv (b := (true, [])) ⟨h.one, Forall₂.nil⟩ hr
  intro a b e x r hab he hret
  obtain ⟨bit, hbit, hret⟩ := returns_bind hret
  obtain ⟨n, hn, hret⟩ := returns_bind hret
  obtain ⟨allZero, hall, hret⟩ := returns_bind hret
  obtain ⟨anyOne, -, hret⟩ := returns_bind hret
  rw [returns_pure hret]
  exact ⟨h.and hab.1 (h.not he hn) hall,
    rel_append hab.2 (Forall₂.cons (h.and hab.1 he hbit) Forall₂.nil)⟩

theorem Sound.oneHotLsbToMsb (hr : Returns F (ev.oneHotLsbToMsb v) r) :
    Vec R r (BoolList.oneHot bs) := by
  obtain ⟨acc, hacc, hr⟩ := returns_bind hr
  rw [returns_pure hr]
  obtain ⟨h1, h2⟩ := h.oneHotFold hv hacc
  rw [← nil_append (BoolList.oneHot bs), ← foldl_oneHotStep]
  exact rel_append h2 (Forall₂.cons h1 Forall₂.nil)

/-- One-hot from the most significant bit is one-hot from the least on the reversed vector. -/
theorem Sound.oneHotMsbToLsb (hr : Returns F (ev.oneHotMsbToLsb v) r) : Vec R r (oneHotMsb bs) := by
  obtain ⟨acc, hacc, hr⟩ := returns_bind hr
  rw [returns_pure hr]
  obtain ⟨h1, h2⟩ := h.oneHotFold (rel_reverse hv) hacc
  have hfold := foldl_oneHotStep bs.reverse []
  rw [nil_append] at hfold
  have hlen : (bs.reverse.foldl BoolList.oneHotStep (true, [])).2.length = bs.length := by
    have := congrArg length hfold
    simpa using this
  unfold oneHotMsb
  rw [← hfold, take_left' hlen, drop_left' hlen]
  exact rel_append (rel_reverse h2) (Forall₂.cons h1 Forall₂.nil)

theorem Sound.andReduce {r : E} (hr : Returns F (ev.andReduce v) r) : R r (bs.all id) := by
  have hfold : R r (bs.foldl Bool.and true) := by
    refine returns_foldList ?_ hv h.one hr
    intro a b e x res ha hx hret
    exact h.and ha hx hret
  rwa [foldl_and, Bool.true_and] at hfold

theorem Sound.orReduce {r : E} (hr : Returns F (ev.orReduce v) r) : R r (bs.any id) := by
  have hfold : R r (bs.foldl Bool.or false) := by
    refine returns_foldList ?_ hv h.zero hr
    intro a b e x res ha hx hret
    exact h.or ha hx hret
  rwa [foldl_or, Bool.false_or] at hfold

/-- The exclusive or of all bits is the parity of the number of bits set. -/
theorem Sound.xorReduce {r : E} (hr : Returns F (ev.xorReduce v) r) :
    R r ((bs.filter id).length % 2 == 1) := by
  have hfold : R r (bs.foldl Bool.xor false) := by
    refine returns_foldList ?_ hv h.zero hr
    intro a b e x res hab he hret
    obtain ⟨nr, hnr, hret⟩ := returns_bind hret
    obtain ⟨l, hl, hret⟩ := returns_bind hret
    obtain ⟨ne, hne, hret⟩ := returns_bind hret
    obtain ⟨t, ht, hret⟩ := returns_bind hret
    have hres := h.or (h.and (h.not hab hnr) he hl) (h.and hab (h.not he hne) ht) hret
    have heq : ((!b && x) || (b && !x)) = (b ^^ x) := by cases b <;> cases x <;> rfl
    rwa [heq] at hres
  rwa [foldl_xor, Bool.false_xor] at hfold

end

end

end Sound

/-! ### Totality -/

section TotalOps

open Grow (Ensures ensures_bind ensures_pure ensures_guardThat)

variable {ev : Evaluator S E} {V : S → E → Prop} {s : S}

/-- Every element of the vector is valid. -/
abbrev AllValid (V : S → E → Prop) (s : S) (v : List E) : Prop := ∀ a ∈ v, V s a

theorem TotalOps.monotonic (h : ev.TotalOps V) : Monotonic V := fun _ _ _ => h.mono

variable {v : List E}

theorem TotalOps.allMono (h : ev.TotalOps V) {t : S} (hst : s ≤ t) (hv : AllValid V s v) :
    AllValid V t v :=
  fun a ha => h.mono hst (hv a ha)

theorem TotalOps.const (h : ev.TotalOps V) (b : Bool) : V s (if b then ev.one else ev.zero) := by
  cases b
  · exact h.zero s
  · exact h.one s

theorem TotalOps.bitsToVector (h : ev.TotalOps V) (b : Bits) :
    AllValid V s (ev.bitsToVector b) := by
  intro a ha
  obtain ⟨x, -, rfl⟩ := mem_map.1 ha
  exact h.const x

theorem TotalOps.constVector (h : ev.TotalOps V) (n : Nat) (b : Bool) :
    AllValid V s (ev.constVector n b) := by
  intro a ha
  rw [eq_of_mem_replicate ha]
  exact h.const b

theorem length_bitsToVector (b : Bits) : (ev.bitsToVector b).length = b.width := by
  rw [Evaluator.bitsToVector, length_map, Bits.toBools_length]

theorem TotalOps.xor (h : ev.TotalOps V) {a b : E} (ha : V s a) (hb : V s b) :
    Ensures s (ev.xor a b) V := by
  refine ensures_bind (h.or ha hb) fun t o ht ho => ?_
  refine ensures_bind (h.and (h.mono ht ha) (h.mono ht hb)) fun t' n ht' hn => ?_
  refine ensures_bind (h.not hn) fun t'' n' ht'' hn' => ?_
  exact h.and (h.mono (ht'.trans ht'') ho) hn'

theorem TotalOps.xnor (h : ev.TotalOps V) {a b : E} (ha : V s a) (hb : V s b) :
    Ensures s (ev.xnor a b) V := by
  refine ensures_bind (h.and ha hb) fun t1 both h1 hboth => ?_
  refine ensures_bind (h.not (h.mono h1 ha)) fun t2 na h2 hna => ?_
  refine ensures_bind (h.not (h.mono (h1.trans h2) hb)) fun t3 nb h3 hnb => ?_
  refine ensures_bind (h.and (h.mono h3 hna) hnb) fun t4 neither h4 hneither => ?_
  exact h.or (h.mono ((h2.trans h3).trans h4) hboth) hneither

theorem TotalOps.bitwiseNot (h : ev.TotalOps V) (hv : AllValid V s v) :
    Ensures s (ev.bitwiseNot v) fun t r => r.length = v.length ∧ AllValid V t r :=
  ensures_mapList h.monotonic fun _ x ht hx => h.not (h.mono ht (hv x hx))

/-- A binary operation that returns valid elements for valid ones, from `s` on. -/
abbrev TotalBinary (V : S → E → Prop) (s : S) (f : E → E → EvalM S E) : Prop :=
  ∀ t a b, s ≤ t → V t a → V t b → Ensures t (f a b) V

variable {f : E → E → EvalM S E} {n : Nat} {acc : E × E × List E}

/-- A binary operation that is total on valid elements is so on the vectors, bit by bit. -/
theorem ensures_zipOp (hmono : Monotonic V) (hf : TotalBinary V s f) {as bs : List E}
    (ha : AllValid V s as) (hb : AllValid V s bs) (hlen : as.length ≤ bs.length) :
    Ensures s (zipOp f as bs) fun t r => r.length = as.length ∧ AllValid V t r := by
  induction as generalizing bs s with
  | nil => exact ensures_pure fun _ _ => ⟨rfl, fun _ hx => nomatch hx⟩
  | cons a as ih =>
    cases bs with
    | nil => simp at hlen
    | cons b bs =>
      rw [AllValid, forall_mem_cons] at ha hb
      refine ensures_bind (hf s a b (le_refl s) ha.1 hb.1) fun t r ht hr => ?_
      refine ensures_bind (ih (fun t' x y ht' => hf t' x y (ht.trans ht'))
        (fun x hx => hmono _ _ _ ht (ha.2 x hx))
        (fun x hx => hmono _ _ _ ht (hb.2 x hx))
        (Nat.le_of_succ_le_succ hlen)) fun t' rs ht' hrs => ?_
      refine ensures_pure fun t'' ht'' => ⟨by simp [hrs.1], forall_mem_cons.2 ⟨?_, ?_⟩⟩
      · exact hmono _ _ _ (ht'.trans ht'') hr
      · exact fun x hx => hmono _ _ _ ht'' (hrs.2 x hx)

/-- An operation on several vectors of one length returns a vector of that length. -/
theorem ensures_naryOp (hmono : Monotonic V) (hf : TotalBinary V s f) {vs : List (List E)}
    (hne : vs ≠ []) (hv : ∀ v ∈ vs, AllValid V s v) (hlen : ∀ v ∈ vs, v.length = n) :
    Ensures s (naryOp f vs) fun t r => r.length = n ∧ AllValid V t r := by
  cases vs with
  | nil => exact absurd rfl hne
  | cons first rest =>
    rw [forall_mem_cons] at hv hlen
    refine ensures_foldList (fun _ _ _ hst h => ⟨h.1, fun x hx => hmono _ _ _ hst (h.2 x hx)⟩) ?_
      ⟨hlen.1, hv.1⟩
    intro t acc x ht hacc hx
    have hxlen := hlen.2 x hx
    refine (ensures_zipOp hmono (fun t' a b ht' => hf t' a b (ht.trans ht'))
      hacc.2 (fun y hy => hmono _ _ _ ht (hv.2 x hx y hy))
      (by omega)).imp ?_
    exact fun t' r _ hr => ⟨hr.1.trans hacc.1, hr.2⟩

theorem ensures_bitSlice (hmono : Monotonic V) (hv : AllValid V s v) {start width : Nat}
    (h : start + width ≤ v.length) :
    Ensures s (bitSlice v start width : EvalM S (List E)) fun t r =>
      r.length = width ∧ AllValid V t r := by
  refine ensures_bind (ensures_guardThat (decide_eq_true h)) fun t _ ht _ => ?_
  refine ensures_pure fun t' ht' => ⟨?_, fun a ha => ?_⟩
  · rw [length_take, length_drop]
    omega
  · exact hmono _ _ _ (ht.trans ht') (hv a (mem_of_mem_drop (mem_of_mem_take ha)))

theorem TotalOps.zeroExtend (h : ev.TotalOps V) (hv : AllValid V s v) {w : Nat}
    (hw : v.length ≤ w) :
    Ensures s (ev.zeroExtend v w) fun t r => r.length = w ∧ AllValid V t r := by
  refine ensures_bind (ensures_guardThat (decide_eq_true hw)) fun t _ ht _ => ?_
  refine ensures_pure fun t' ht' => ⟨?_, fun a ha => ?_⟩
  · simp [concat, Evaluator.constVector]
    omega
  · have ha' : a ∈ v ∨ a ∈ ev.constVector (w - v.length) false := by simpa [concat] using ha
    rcases ha' with ha | ha
    · exact h.mono (ht.trans ht') (hv a ha)
    · exact h.constVector _ _ a ha

/-- Extension by the sign needs a sign bit and returns the requested width. -/
theorem ensures_signExtend (hmono : Monotonic V) (hv : AllValid V s v) {w : Nat}
    (hpos : 0 < v.length) (hw : v.length ≤ w) :
    Ensures s (signExtend v w : EvalM S (List E)) fun t r =>
      r.length = w ∧ AllValid V t r := by
  unfold signExtend
  cases hl : v.getLast? with
  | none =>
    rw [getLast?_eq_none_iff] at hl
    simp [hl] at hpos
  | some sign =>
    refine ensures_bind (ensures_guardThat (decide_eq_true hw)) fun t _ ht _ => ?_
    refine ensures_pure fun t' ht' => ⟨?_, fun a ha => ?_⟩
    · simp [concat]
      omega
    · have ha' : a ∈ v ∨ a ∈ replicate (w - v.length) sign := by simpa [concat] using ha
      rcases ha' with ha | ha
      · exact hmono _ _ _ (ht.trans ht') (hv a ha)
      · rw [eq_of_mem_replicate ha]
        exact hmono _ _ _ (ht.trans ht') (hv sign (mem_of_getLast? hl))

theorem TotalOps.equals (h : ev.TotalOps V) {a b : List E} (ha : AllValid V s a)
    (hb : AllValid V s b) (hlen : a.length = b.length) : Ensures s (ev.equals a b) V := by
  refine ensures_bind (ensures_guardThat (beq_iff_eq.2 hlen)) fun t _ ht _ => ?_
  refine ensures_foldList h.monotonic ?_ (h.one t)
  intro t1 acc p h1 hacc hp
  have hmem := of_mem_zip hp
  have hpa := h.mono (ht.trans h1) (ha p.1 hmem.1)
  have hpb := h.mono (ht.trans h1) (hb p.2 hmem.2)
  refine ensures_bind (h.xnor hpa hpb) fun t2 same h2 hsame => ?_
  exact h.and (h.mono h2 hacc) hsame

/-- Both components are valid. -/
abbrev PairValid (V : S → E → Prop) (s : S) (p : E × E) : Prop := V s p.1 ∧ V s p.2

theorem TotalOps.pairMono (h : ev.TotalOps V) : Monotonic (PairValid V) :=
  fun _ _ _ hst hp => ⟨h.mono hst hp.1, h.mono hst hp.2⟩

/-- One step of the comparison keeps the pair of flags valid. -/
theorem TotalOps.uLessThanStep (h : ev.TotalOps V) {acc p : E × E} (hacc : PairValid V s acc)
    (hp : PairValid V s p) : Ensures s (ev.uLessThanStep acc p) (PairValid V) := by
  refine ensures_bind (h.not hp.1) fun t1 na h1 hna => ?_
  refine ensures_bind (h.and hna (h.mono h1 hp.2)) fun t2 lt h2 hlt => ?_
  have h12 := h1.trans h2
  refine ensures_bind (h.and (h.mono h12 hacc.2) hlt) fun t3 here h3 hhere => ?_
  have h13 := h12.trans h3
  refine ensures_bind (h.or (h.mono h13 hacc.1) hhere) fun t4 result h4 hresult => ?_
  have h14 := h13.trans h4
  refine ensures_bind (h.not (h.mono h14 hp.1)) fun t5 na' h5 hna' => ?_
  have h15 := h14.trans h5
  refine ensures_bind (h.or hna' (h.mono h15 hp.2)) fun t6 le h6 hle => ?_
  have h16 := h15.trans h6
  refine ensures_bind (h.and (h.mono h16 hacc.2) hle) fun t7 lte h7 hlte => ?_
  have h47 := (h5.trans h6).trans h7
  exact ensures_pure fun t8 h8 => ⟨h.mono (h47.trans h8) hresult, h.mono h8 hlte⟩

theorem TotalOps.uLessThan (h : ev.TotalOps V) {a b : List E} (ha : AllValid V s a)
    (hb : AllValid V s b) (hlen : a.length = b.length) : Ensures s (ev.uLessThan a b) V := by
  refine ensures_bind (ensures_guardThat (beq_iff_eq.2 hlen)) fun t _ ht _ => ?_
  refine ensures_bind (P := PairValid V) ?_ fun t' acc _ hacc => ?_
  · refine ensures_foldList h.pairMono ?_ ⟨h.zero t, h.one t⟩
    intro t1 acc p h1 hacc hp
    have hmem := of_mem_zip (mem_reverse.1 hp)
    exact h.uLessThanStep hacc
      ⟨h.mono (ht.trans h1) (ha p.1 hmem.1), h.mono (ht.trans h1) (hb p.2 hmem.2)⟩
  · exact ensures_pure fun t'' ht'' => h.mono ht'' hacc.1

/-- The accumulator of the one-hot loops after `n` rounds. -/
abbrev OneHotValid (V : S → E → Prop) (n : Nat) (s : S) (acc : E × E × List E) : Prop :=
  V s acc.1 ∧ V s acc.2.1 ∧ acc.2.2.length = n ∧ AllValid V s acc.2.2

section

variable (h : ev.TotalOps V)
include h

/-- One step of the one-hot operation adds one bit to the result. -/
theorem TotalOps.oneHotStep {e : E} (hacc : OneHotValid V n s acc) (he : V s e) :
    Ensures s (ev.oneHotStep acc e) (OneHotValid V (n + 1)) := by
  obtain ⟨hzero, hany, hlen, hall⟩ := hacc
  refine ensures_bind (h.and hzero he) fun t1 bit h1 hbit => ?_
  refine ensures_bind (h.not (h.mono h1 he)) fun t2 ne h2 hne => ?_
  have h12 := h1.trans h2
  refine ensures_bind (h.and (h.mono h12 hzero) hne) fun t3 allZero h3 hallZero => ?_
  have h13 := h12.trans h3
  refine ensures_bind (h.or (h.mono h13 hany) (h.mono h13 he)) fun t4 anyOne h4 hanyOne => ?_
  refine ensures_pure fun t5 h5 => ⟨h.mono (h4.trans h5) hallZero, h.mono h5 hanyOne, ?_, ?_⟩
  · simp [hlen]
  · have h25 := ((h2.trans h3).trans h4).trans h5
    intro a ha
    rcases mem_append.1 ha with ha | ha
    · exact h.mono (h1.trans h25) (hall a ha)
    · rw [mem_singleton.1 ha]
      exact h.mono h25 hbit

section

variable (hv : AllValid V s v)
include hv

/-- The one-hot loop adds a bit for each bit of the input. -/
theorem TotalOps.oneHotFold (hacc : OneHotValid V n s acc) :
    Ensures s (foldList ev.oneHotStep acc v) (OneHotValid V (n + v.length)) := by
  induction v generalizing acc n s with
  | nil =>
    refine ensures_pure fun t ht => ?_
    exact ⟨h.mono ht hacc.1, h.mono ht hacc.2.1, hacc.2.2.1, h.allMono ht hacc.2.2.2⟩
  | cons e v ih =>
    rw [AllValid, forall_mem_cons] at hv
    refine ensures_bind (h.oneHotStep hacc hv.1) fun t acc' ht hacc' => ?_
    have hrest := ih (h.allMono ht hv.2) hacc'
    rwa [Nat.add_assoc, Nat.add_comm 1] at hrest

theorem TotalOps.oneHotLsbToMsb :
    Ensures s (ev.oneHotLsbToMsb v) fun t r => r.length = v.length + 1 ∧ AllValid V t r := by
  have hinit : OneHotValid V 0 s (ev.one, ev.zero, []) :=
    ⟨h.one s, h.zero s, rfl, fun _ hx => nomatch hx⟩
  refine ensures_bind (h.oneHotFold hv hinit) fun t acc ht hacc => ?_
  refine ensures_pure fun t' ht' => ⟨by simp [hacc.2.2.1], fun a ha => ?_⟩
  rcases mem_append.1 ha with ha | ha
  · exact h.mono ht' (hacc.2.2.2 a ha)
  · rw [mem_singleton.1 ha]
    exact h.mono ht' hacc.1

/-- The one-hot vector has one bit more than the input. -/
theorem TotalOps.oneHotMsbToLsb :
    Ensures s (ev.oneHotMsbToLsb v) fun t r => r.length = v.length + 1 ∧ AllValid V t r := by
  have hinit : OneHotValid V 0 s (ev.one, ev.zero, []) :=
    ⟨h.one s, h.zero s, rfl, fun _ hx => nomatch hx⟩
  have hrev : AllValid V s v.reverse := fun a ha => hv a (mem_reverse.1 ha)
  refine ensures_bind (h.oneHotFold hrev hinit) fun t acc ht hacc => ?_
  refine ensures_pure fun t' ht' => ⟨by simp [hacc.2.2.1], fun a ha => ?_⟩
  rcases mem_append.1 ha with ha | ha
  · exact h.mono ht' (hacc.2.2.2 a (mem_reverse.1 ha))
  · rw [mem_singleton.1 ha]
    exact h.mono ht' hacc.1

theorem TotalOps.andReduce : Ensures s (ev.andReduce v) V :=
  ensures_foldList h.monotonic (fun _ _ x ht ha hx => h.and ha (h.mono ht (hv x hx))) (h.one s)

theorem TotalOps.orReduce : Ensures s (ev.orReduce v) V :=
  ensures_foldList h.monotonic (fun _ _ x ht ha hx => h.or ha (h.mono ht (hv x hx))) (h.zero s)

/-- The parity of a valid vector is a valid element. -/
theorem TotalOps.xorReduce : Ensures s (ev.xorReduce v) V := by
  refine ensures_foldList h.monotonic ?_ (h.zero s)
  intro t acc x ht hacc hx
  have hxv := h.mono ht (hv x hx)
  refine ensures_bind (h.not hacc) fun t1 nr h1 hnr => ?_
  refine ensures_bind (h.and hnr (h.mono h1 hxv)) fun t2 l h2 hl => ?_
  have h12 := h1.trans h2
  refine ensures_bind (h.not (h.mono h12 hxv)) fun t3 ne h3 hne => ?_
  refine ensures_bind (h.and (h.mono (h12.trans h3) hacc) hne) fun t4 r h4 hr => ?_
  exact h.or (h.mono (h3.trans h4) hl) hr

end

end

end TotalOps

end Evaluator

end Xls

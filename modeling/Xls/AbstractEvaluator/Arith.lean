import Xls.AbstractEvaluator.Select

/-!
# Xls.AbstractEvaluator.Arith

Arithmetic of `xls/ir/abstract_evaluator.h`: a ripple-carry adder, a Dadda multiplier, long
division, and the signed operations built from them (`Sound.umul`, `Sound.smul` and
`Sound.sdivMod`).

The multiplier keeps columns of partial products. Adding up the set bits of the
columns, each with the weight of its column, gives a number that every reduction
step preserves, so the order of the steps does not matter for the result.
-/

namespace Xls.Evaluator

open Bits BoolList Grow List Nat

variable {S E : Type} [Preorder S]

/-! ### Addition and negation -/

/-- The loop of `Add`; reading past the end of `b` is undefined. -/
def addFrom (ev : Evaluator S E) : E → List E → List E → EvalM S (List E)
  | _, [], _ => pure []
  | _, _ :: _, [] => fail .check
  | carry, a :: as, b :: bs => do
    let r ← ev.fullAdder a b carry
    let rest ← addFrom ev r.2 as bs
    return r.1 :: rest

def add (ev : Evaluator S E) (a b : List E) : EvalM S (List E) := ev.addFrom ev.zero a b

def neg (ev : Evaluator S E) (x : List E) : EvalM S (List E) :=
  if x.length = 0 then pure x
  else do
    let inverted ← ev.bitwiseNot x
    let one ← ev.constant 1 x.length
    ev.add inverted one

/-- `Abs`; the operand must have a sign bit. -/
def abs (ev : Evaluator S E) (x : List E) : EvalM S (List E) :=
  match x.getLast? with
  | none => fail .check
  | some sign => do
    let n ← ev.neg x
    ev.select [sign] [x, n] none

/-! ### Multiplication -/

/-- Push an element to the end of a column. -/
def pushAt (e : E) : Nat → List (List E) → List (List E)
  | _, [] => []
  | 0, column :: columns => (column ++ [e]) :: columns
  | k + 1, column :: columns => column :: pushAt e k columns

/-- The partial products of one bit of the first operand. -/
def productRow (ev : Evaluator S E) (b : List E) (columns : List (List E)) (a : E × Nat) :
    EvalM S (List (List E)) :=
  foldList (fun columns p => do
    let x ← ev.and a.1 p.1
    return pushAt x (a.2 + p.2) columns) columns b.zipIdx

/-- The first height of the reduction: the least one of the sequence that reaches
the number of partial products. -/
def growHeight (target : Nat) : Nat → Nat → Nat
  | 0, height => height
  | fuel + 1, height => if height < target then growHeight target fuel (3 * height / 2) else height

/-- The maximum heights of the stages, from a starting height down to two. -/
def stageHeights : Nat → Nat → List Nat
  | 0, _ => []
  | fuel + 1, height =>
    if 2 < height then
      let next := (2 * height + 2) / 3
      next :: stageHeights fuel next
    else []

/-- Reduce one column to a height; the carries go to the next column. -/
def reduceColumn (ev : Evaluator S E) (height : Nat) :
    Nat → List E → List E → EvalM S (List E × List E)
  | 0, column, carries => pure (column, carries)
  | fuel + 1, column, carries =>
    if height + 1 < column.length then
      match column with
      | a :: b :: c :: rest => do
        let r ← ev.fullAdder a b c
        reduceColumn ev height fuel (rest ++ [r.1]) (carries ++ [r.2])
      | _ => fail .check
    else if height < column.length then
      match column with
      | a :: b :: rest => do
        let r ← ev.halfAdder a b
        return (rest ++ [r.1], carries ++ [r.2])
      | _ => fail .check
    else pure (column, carries)

/-- One stage over all columns, with the carries pushed to the column at hand.
The last column must not need a reduction. -/
def reduceColumns (ev : Evaluator S E) (height : Nat) :
    List E → List (List E) → EvalM S (List (List E))
  | [], [] => pure []
  | _ :: _, [] => fail .check
  | pending, column :: columns =>
    if (column ++ pending).length ≤ height then do
      let rest ← reduceColumns ev height [] columns
      return (column ++ pending) :: rest
    else do
      guardThat .check (decide (0 < columns.length))
      let r ← ev.reduceColumn height (column ++ pending).length (column ++ pending) []
      let rest ← reduceColumns ev height r.2 columns
      return r.1 :: rest

/-- The final ripple-carry adder over columns of height at most three. -/
def sumColumns (ev : Evaluator S E) : List E → List (List E) → EvalM S (List E)
  | [], [] => pure []
  | _ :: _, [] => fail .check
  | pending, column :: columns =>
    match column ++ pending with
    | [] => do
      let rest ← sumColumns ev [] columns
      return ev.zero :: rest
    | [a] => do
      let rest ← sumColumns ev [] columns
      return a :: rest
    | [a, b] => do
      let r ← ev.halfAdder a b
      let rest ← sumColumns ev [r.2] columns
      return r.1 :: rest
    | [a, b, c] => do
      let r ← ev.fullAdder a b c
      let rest ← sumColumns ev [r.2] columns
      return r.1 :: rest
    | _ => fail .check

/-- `UMul`: a Dadda multiplier. -/
def umul (ev : Evaluator S E) (a b : List E) : EvalM S (List E) := do
  let columns ← foldList (ev.productRow b) (replicate (a.length + b.length) []) a.zipIdx
  let target := max a.length b.length
  let height := growHeight target target 2
  let columns ← foldList (fun columns h => ev.reduceColumns h [] columns) columns
    (stageHeights height height)
  ev.sumColumns [] columns

/-- `SMul`. -/
def smul (ev : Evaluator S E) (a b : List E) : EvalM S (List E) := do
  let width := max a.length b.length
  let tempA ← signExtend a (width * 2)
  let tempB ← signExtend b (width * 2)
  let result ← ev.umul tempA tempB
  bitSlice result 0 (a.length + b.length)

/-! ### Division -/

/-- One round of `UDivMod`, on the quotient and the remainder so far. -/
def divStep (ev : Evaluator S E) (divisor negDivisor : List E) (acc : List E × List E) (n : E) :
    EvalM S (List E × List E) := do
  let shifted := n :: acc.2
  let less ← ev.uLessThan shifted divisor
  let bit ← ev.not less
  let difference ← ev.add shifted negDivisor
  let r ← ev.select [bit] [shifted, difference] none
  return (bit :: acc.1, r.dropLast)

/-- `UDivMod`: long division, from the most significant bit down. -/
def udivMod (ev : Evaluator S E) (n d : List E) : EvalM S (List E × List E) := do
  let nonzeroDivisor ← ev.orReduce d
  let divisor ← ev.zeroExtend d (d.length + 1)
  let negDivisor ← ev.neg divisor
  let (q, r) ← foldList (ev.divStep divisor negDivisor) ([], ev.constVector d.length false)
    n.reverse
  let quotient ← ev.select [nonzeroDivisor] [ev.constVector q.length true, q] none
  let remainder ← ev.select [nonzeroDivisor] [ev.constVector r.length false, r] none
  return (quotient, remainder)

def udiv (ev : Evaluator S E) (n d : List E) : EvalM S (List E) := do
  let r ← ev.udivMod n d
  return r.1

def umod (ev : Evaluator S E) (n d : List E) : EvalM S (List E) := do
  let r ← ev.udivMod n d
  return r.2

/-- A vector with one value in the sign bit and another below it. -/
def signVector (n : Nat) (sign rest : E) : List E :=
  if n = 0 then [] else replicate (n - 1) rest ++ [sign]

/-- `SDivMod`; the remainder has the sign of the dividend. -/
def sdivMod (ev : Evaluator S E) (n d : List E) : EvalM S (List E × List E) := do
  let nonzeroDivisor ← ev.orReduce d
  let nNegative := n.getLast?.getD ev.zero
  let dNegative := d.getLast?.getD ev.zero
  let absN ← ev.abs n
  let absD ← ev.abs d
  let result ← ev.udivMod absN absD
  let negRemainder ← ev.neg result.2
  let remainder ← ev.select [nNegative] [result.2, negRemainder] none
  let differ ← ev.xor nNegative dNegative
  let negQuotient ← ev.neg result.1
  let quotient ← ev.select [differ] [result.1, negQuotient] none
  let largestPositive := signVector quotient.length ev.zero ev.one
  let largestNegative := signVector quotient.length ev.one ev.zero
  let quotient' ← ev.select [nNegative, nonzeroDivisor] [largestPositive, largestNegative]
    (some quotient)
  return (quotient', remainder)

def sdiv (ev : Evaluator S E) (n d : List E) : EvalM S (List E) := do
  let r ← ev.sdivMod n d
  return r.1

def smod (ev : Evaluator S E) (n d : List E) : EvalM S (List E) := do
  let r ← ev.sdivMod n d
  return r.2

/-! ### Soundness of addition and negation -/

section Sound

open Grow (Returns returns_bind returns_pure)

variable {ev : Evaluator S E} {F : S} {R : E → Bool → Prop}

/-- The vector stands for a number below `2 ^ w`. -/
def Num (R : E → Bool → Prop) (w : Nat) (v : List E) (n : Nat) : Prop :=
  ∃ bs, Vec R v bs ∧ bs.length = w ∧ toNat bs = n

variable {w n : Nat} {v as bs r : List E} {columns : List (List E)} {bits : List (List Bool)}
  {res : List E × List E} {b : Bits}

theorem Num.length_eq (h : Num R w v n) : v.length = w := by
  obtain ⟨bs, hv, rfl, -⟩ := h
  exact hv.length_eq

theorem Num.lt (h : Num R w v n) : n < 2 ^ w := by
  obtain ⟨bs, -, rfl, rfl⟩ := h
  exact toNat_lt bs

/-- A vector with a known width and number is the one of the corresponding bits. -/
theorem Num.vec (h : Num R w v n) : Vec R v (BoolList.ofNat w n) := by
  obtain ⟨bs, hv, rfl, rfl⟩ := h
  rwa [ofNat_toNat]

theorem Num.cons {w n : Nat} {v : List E} {e : E} {b : Bool} (hb : R e b) (h : Num R w v n) :
    Num R (w + 1) (e :: v) (b.toNat + 2 * n) := by
  obtain ⟨bs, hv, rfl, rfl⟩ := h
  exact ⟨b :: bs, Forall₂.cons hb hv, rfl, rfl⟩

/-- A full adder at the lowest bit and the sum of the rest, both reduced to the width. -/
theorem add_carry_mod (x y c : Bool) (m n w : Nat) :
    (x ^^ y ^^ c).toNat + 2 * ((m + n + (carryOf x y c).toNat) % 2 ^ w) =
      (x.toNat + 2 * m + (y.toNat + 2 * n) + c.toNat) % 2 ^ (w + 1) := by
  have hsum := carryOf_spec x y c
  have heq : x.toNat + 2 * m + (y.toNat + 2 * n) + c.toNat =
      (x ^^ y ^^ c).toNat + 2 * (m + n + (carryOf x y c).toNat) := by omega
  have hlt : (x ^^ y ^^ c).toNat < 2 := Bool.toNat_lt _
  rw [heq, pow_succ']
  have hdiv : ((x ^^ y ^^ c).toNat + 2 * (m + n + (carryOf x y c).toNat)) / 2 =
      m + n + (carryOf x y c).toNat := by omega
  have hmod : ((x ^^ y ^^ c).toNat + 2 * (m + n + (carryOf x y c).toNat)) % 2 =
      (x ^^ y ^^ c).toNat := by omega
  rw [mod_mul, hdiv, hmod]

/-- The ripple carry adder computes the sum with its carry in, reduced to the width. -/
theorem Sound.addFrom (h : ev.Sound F R) {xs ys : List Bool} (ha : Vec R as xs) (hb : Vec R bs ys)
    (hlen : xs.length = ys.length) {carry : E} {c : Bool} (hc : R carry c)
    (hr : Returns F (ev.addFrom carry as bs) r) :
    Num R xs.length r ((toNat xs + toNat ys + c.toNat) % 2 ^ xs.length) := by
  induction ha generalizing bs ys carry c r with
  | nil =>
    rw [returns_pure hr]
    exact ⟨[], Forall₂.nil, rfl, (mod_one _).symm⟩
  | cons hax _ ih =>
    cases hb with
    | nil => simp at hlen
    | cons hby hb =>
      rw [Evaluator.addFrom] at hr
      obtain ⟨s, hs, hr⟩ := returns_bind hr
      obtain ⟨rest, hrest, hr⟩ := returns_bind hr
      rw [returns_pure hr]
      obtain ⟨hsum, hcarry⟩ := h.fullAdder hax hby hc hs
      have htail := ih hb (succ.inj hlen) hcarry hrest
      have hres := htail.cons hsum
      rwa [add_carry_mod] at hres

variable {m : Nat} {e : E} {pending divisor negDivisor d : List E} {acc : List E × List E}
  {a : Bits}

theorem Sound.add (h : ev.Sound F R) (ha : Num R w as m) (hb : Num R w bs n)
    (hr : Returns F (ev.add as bs) r) : Num R w r ((m + n) % 2 ^ w) := by
  obtain ⟨xs, hxs, rfl, rfl⟩ := ha
  obtain ⟨ys, hys, hlen, rfl⟩ := hb
  exact h.addFrom hxs hys hlen.symm h.zero hr

theorem Sound.constant_num (h : ev.Sound F R) {value width : Nat}
    (hr : Returns F (ev.constant value width) r) : Num R width r value := by
  obtain ⟨hlt, hv⟩ := h.constant hr
  exact ⟨_, hv, length_ofNat _ _, by rw [toNat_ofNat, mod_eq_of_lt hlt]⟩

/-- Negation is the complement to the power of two of the width. -/
theorem Sound.neg (h : ev.Sound F R) (hv : Num R w v n) (hr : Returns F (ev.neg v) r) :
    Num R w r ((2 ^ w - n) % 2 ^ w) := by
  have hlt := hv.lt
  unfold Evaluator.neg at hr
  rw [hv.length_eq] at hr
  split at hr
  · rename_i h0
    subst h0
    rw [returns_pure hr]
    obtain rfl : n = 0 := by simpa using hlt
    exact hv
  · obtain ⟨bs, hbs, rfl, rfl⟩ := hv
    obtain ⟨inverted, hinv, hr⟩ := returns_bind hr
    obtain ⟨one, hone, hr⟩ := returns_bind hr
    have hnot : Num R bs.length inverted (2 ^ bs.length - 1 - toNat bs) :=
      ⟨_, h.bitwiseNot hbs hinv, length_map _, toNat_map_not bs⟩
    have hres := h.add hnot (h.constant_num hone) hr
    have heq : 2 ^ bs.length - 1 - toNat bs + 1 = 2 ^ bs.length - toNat bs := by omega
    rwa [heq] at hres

/-- A one-bit select picks one of two numbers. -/
theorem Sound.selectBit (h : ev.Sound F R) {b : Bool} (he : R e b) {v0 v1 : List E} {n0 n1 : Nat}
    (h0 : Num R w v0 n0) (h1 : Num R w v1 n1) (hr : Returns F (ev.select [e] [v0, v1] none) r) :
    Num R w r (if b then n1 else n0) := by
  obtain ⟨bs0, hv0, hw0, rfl⟩ := h0
  obtain ⟨bs1, hv1, hw1, rfl⟩ := h1
  have hs : Vec R [e] [b] := Forall₂.cons he Forall₂.nil
  have hc : Forall₂ (Vec R) [v0, v1] [bs0, bs1] :=
    Forall₂.cons hv0 (Forall₂.cons hv1 Forall₂.nil)
  have hw : ∀ c ∈ [bs0, bs1], c.length = w := by
    intro c hmem
    rcases mem_pair.1 hmem with rfl | rfl
    · exact hw0
    · exact hw1
  have hk : toNat [b] < [bs0, bs1].length := by cases b <;> simp
  have hres := h.select_none hs hc hw hk hr
  cases b with
  | false => exact ⟨bs0, hres, hw0, rfl⟩
  | true => exact ⟨bs1, hres, hw1, rfl⟩

/-! ### Soundness of multiplication -/

/-- The set bits of a column. -/
def columnCount (column : List Bool) : Nat := column.count true

/-- The set bits of the columns, each with the weight of its column. -/
def columnsValue : List (List Bool) → Nat
  | [] => 0
  | column :: columns => columnCount column + 2 * columnsValue columns

@[simp] theorem columnCount_nil : columnCount [] = 0 := rfl

@[simp] theorem columnCount_append (as bs : List Bool) :
    columnCount (as ++ bs) = columnCount as + columnCount bs :=
  count_append

@[simp] theorem columnCount_cons (b : Bool) (bs : List Bool) :
    columnCount (b :: bs) = b.toNat + columnCount bs := by
  cases b <;> simp [columnCount, Nat.add_comm]

/-- Columns of elements stand for columns of bits with a given value. -/
def Columns (R : E → Bool → Prop) (n : Nat) (columns : List (List E)) (value : Nat) : Prop :=
  ∃ bits, Forall₂ (Vec R) columns bits ∧ bits.length = n ∧ columnsValue bits = value

/-- A bit pushed to a column adds its weight to the value of the columns. -/
theorem pushAt_rel (hc : Forall₂ (Vec R) columns bits) {b : Bool} (he : R e b) {k : Nat}
    (hk : k < bits.length) :
    Columns R bits.length (pushAt e k columns) (columnsValue bits + 2 ^ k * b.toNat) := by
  induction hc generalizing k with
  | nil => exact absurd hk (Nat.not_lt_zero k)
  | @cons column bs columns rest hcol hrest ih =>
    cases k with
    | zero =>
      refine ⟨(bs ++ [b]) :: rest, Forall₂.cons (vec_append hcol (vec_singleton he)) hrest, rfl, ?_⟩
      simp [columnsValue]
      omega
    | succ k =>
      obtain ⟨rest', hrel, hlen, hval⟩ := ih (lt_of_succ_lt_succ hk)
      refine ⟨bs :: rest', Forall₂.cons hcol hrel, by simp [hlen], ?_⟩
      rw [columnsValue, hval, columnsValue, pow_succ']
      ring

theorem foldl_productRow (bs : List Bool) (x : Bool) (i k v : Nat) :
    (bs.zipIdx k).foldl (fun v p => v + 2 ^ (i + p.2) * (x && p.1).toNat) v =
      v + x.toNat * 2 ^ (i + k) * toNat bs := by
  induction bs generalizing k v with
  | nil => simp
  | cons b bs ih =>
    rw [zipIdx_cons, foldl_cons, ih, toNat_cons]
    have hand : (x && b).toNat = x.toNat * b.toNat := by cases x <;> cases b <;> rfl
    rw [hand, ← Nat.add_assoc i k 1, pow_succ]
    ring

theorem foldl_productRows (as bs : List Bool) (k v : Nat) :
    (as.zipIdx k).foldl (fun v p => v + p.1.toNat * 2 ^ p.2 * toNat bs) v =
      v + 2 ^ k * toNat as * toNat bs := by
  induction as generalizing k v with
  | nil => simp
  | cons a as ih =>
    rw [zipIdx_cons, foldl_cons, ih, toNat_cons, pow_succ]
    ring

/-- Elements with their positions stand for bits with theirs. -/
theorem zipIdx_rel {bs : List Bool} (hv : Vec R v bs) :
    Forall₂ (fun p q => R p.1 q.1 ∧ p.2 = q.2 ∧ q.2 < bs.length) v.zipIdx bs.zipIdx := by
  have hrange : Forall₂ (fun i j => i = j ∧ j < bs.length) (range' 0 bs.length)
      (range' 0 bs.length) := by
    rw [forall₂_same]
    intro i hi
    rw [mem_range'_1] at hi
    exact ⟨rfl, by omega⟩
  rw [zipIdx_eq_zip_range', zipIdx_eq_zip_range', hv.length_eq]
  exact (forall₂_zip hv hrange).imp fun _ _ h => ⟨h.1, h.2.1, h.2.2⟩

/-- One row of partial products adds its multiple of the second factor. -/
theorem Sound.productRow (h : ev.Sound F R) {b : List E} {bs : List Bool} (hb : Vec R b bs)
    {a : E × Nat} {x : Bool} (ha : R a.1 x) {v : Nat} (hn : a.2 + bs.length ≤ n) {r : List (List E)}
    (hc : Columns R n columns v) (hr : Returns F (ev.productRow b columns a) r) :
    Columns R n r (v + x.toNat * 2 ^ a.2 * toNat bs) := by
  have hfold := foldl_productRow bs x a.2 0 v
  rw [Nat.add_zero] at hfold
  rw [← hfold]
  refine returns_foldList ?_ (zipIdx_rel hb) hc hr
  intro cols m p q e hcols hp hret
  obtain ⟨y, hy, hret⟩ := returns_bind hret
  rw [returns_pure hret, hp.2.1]
  obtain ⟨bits, hrel, rfl, rfl⟩ := hcols
  exact pushAt_rel hrel (h.and ha hp.1 hy) (by omega)

/-- Reducing a column keeps its count when a carry counts double. -/
theorem Sound.reduceColumn (h : ev.Sound F R) {height fuel : Nat} {column carries : List E}
    {bs cs : List Bool} (hcol : Vec R column bs) (hcar : Vec R carries cs) {r : List E × List E}
    (hr : Returns F (ev.reduceColumn height fuel column carries) r) :
    ∃ bs' cs', Vec R r.1 bs' ∧ Vec R r.2 cs' ∧
      columnCount bs' + 2 * columnCount cs' = columnCount bs + 2 * columnCount cs := by
  induction fuel generalizing column carries bs cs with
  | zero =>
    rw [returns_pure hr]
    exact ⟨bs, cs, hcol, hcar, rfl⟩
  | succ fuel ih =>
    unfold Evaluator.reduceColumn at hr
    split at hr
    · split at hr
      · obtain ⟨x, _, ha, htail1, rfl⟩ := forall₂_cons_left_iff.1 hcol
        obtain ⟨y, _, hb, htail2, rfl⟩ := forall₂_cons_left_iff.1 htail1
        obtain ⟨z, zs, hc, htail, rfl⟩ := forall₂_cons_left_iff.1 htail2
        obtain ⟨s, hs, hr⟩ := returns_bind hr
        obtain ⟨hsum, hcarry⟩ := h.fullAdder ha hb hc hs
        obtain ⟨bs', cs', hb', hc', heq⟩ := ih
          (vec_append htail (vec_singleton hsum))
          (vec_append hcar (vec_singleton hcarry)) hr
        refine ⟨bs', cs', hb', hc', heq.trans ?_⟩
        have hspec := carryOf_spec x y z
        simp only [columnCount_append, columnCount_cons, columnCount_nil]
        omega
      · exact (not_returns_fail hr).elim
    · split at hr
      · split at hr
        · obtain ⟨x, _, ha, htail1, rfl⟩ := forall₂_cons_left_iff.1 hcol
          obtain ⟨y, ys, hb, htail, rfl⟩ := forall₂_cons_left_iff.1 htail1
          obtain ⟨s, hs, hr⟩ := returns_bind hr
          obtain ⟨hsum, hcarry⟩ := h.halfAdder ha hb hs
          rw [returns_pure hr]
          refine ⟨_, _, vec_append htail (vec_singleton hsum),
            vec_append hcar (vec_singleton hcarry), ?_⟩
          have hspec : x.toNat + y.toNat = (x ^^ y).toNat + 2 * (x && y).toNat := by
            cases x <;> cases y <;> rfl
          simp only [columnCount_append, columnCount_cons, columnCount_nil]
          omega
        · exact (not_returns_fail hr).elim
      · rw [returns_pure hr]
        exact ⟨bs, cs, hcol, hcar, rfl⟩

/-- The carries of a column are pending for the next one, so the value of all columns is kept. -/
theorem Sound.reduceColumns (h : ev.Sound F R) {height : Nat} {r : List (List E)} {ps : List Bool}
    (hp : Vec R pending ps) (hc : Forall₂ (Vec R) columns bits)
    (hr : Returns F (ev.reduceColumns height pending columns) r) :
    Columns R bits.length r (columnCount ps + columnsValue bits) := by
  induction hc generalizing pending ps r with
  | nil =>
    cases hp with
    | nil =>
      rw [Evaluator.reduceColumns] at hr
      rw [returns_pure hr]
      exact ⟨[], Forall₂.nil, rfl, rfl⟩
    | cons _ _ =>
      rw [Evaluator.reduceColumns] at hr
      exact (not_returns_fail hr).elim
  | @cons column bs columns rest hcol hrest ih =>
    have hjoin := vec_append hcol hp
    rw [Evaluator.reduceColumns] at hr
    split at hr
    · obtain ⟨tail, htail, hr⟩ := returns_bind hr
      rw [returns_pure hr]
      obtain ⟨bits', hrel, hlen, hval⟩ := ih Forall₂.nil htail
      refine ⟨(bs ++ ps) :: bits', Forall₂.cons hjoin hrel, by simp [hlen], ?_⟩
      rw [columnCount_nil, Nat.zero_add] at hval
      rw [columnsValue, columnsValue, hval, columnCount_append]
      omega
    · obtain ⟨u, -, hr⟩ := returns_bind hr
      obtain ⟨s, hs, hr⟩ := returns_bind hr
      obtain ⟨tail, htail, hr⟩ := returns_bind hr
      rw [returns_pure hr]
      obtain ⟨bs', cs', hb', hc', heq⟩ := h.reduceColumn hjoin Forall₂.nil hs
      obtain ⟨bits', hrel, hlen, hval⟩ := ih hc' htail
      refine ⟨bs' :: bits', Forall₂.cons hb' hrel, by simp [hlen], ?_⟩
      rw [columnCount_append, columnCount_nil] at heq
      rw [columnsValue, columnsValue, hval]
      omega

/-- The last two rows are added column by column with the carries of the column before. -/
theorem Sound.sumColumns (h : ev.Sound F R) {ps : List Bool} (hp : Vec R pending ps)
    (hc : Forall₂ (Vec R) columns bits) (hr : Returns F (ev.sumColumns pending columns) r) :
    Num R bits.length r (columnCount ps + columnsValue bits) := by
  induction hc generalizing pending ps r with
  | nil =>
    cases hp with
    | nil =>
      rw [Evaluator.sumColumns] at hr
      rw [returns_pure hr]
      exact ⟨[], Forall₂.nil, rfl, rfl⟩
    | cons _ _ =>
      rw [Evaluator.sumColumns] at hr
      exact (not_returns_fail hr).elim
  | @cons column bs columns rest hcol hrest ih =>
    have hjoin := vec_append hcol hp
    have hcount := columnCount_append bs ps
    -- the columns below this one, given the bit and the carry it leaves
    have hstep : ∀ {e : E} {b : Bool} {carry : List E} {c : List Bool} {tail : List E},
        R e b → Vec R carry c → Returns F (ev.sumColumns carry columns) tail →
        columnCount (bs ++ ps) = b.toNat + 2 * columnCount c →
        Num R (bs :: rest).length (e :: tail) (columnCount ps + columnsValue (bs :: rest)) := by
      intro e b carry c tail he hcarry htail hval
      have hres := (ih hcarry htail).cons he
      have heq : b.toNat + 2 * (columnCount c + columnsValue rest) =
          columnCount ps + columnsValue (bs :: rest) := by
        rw [columnsValue]
        omega
      rwa [heq] at hres
    rw [Evaluator.sumColumns] at hr
    split at hr
    · rename_i hnil
      rw [hnil] at hjoin
      rw [forall₂_nil_left_iff.1 hjoin] at hstep
      obtain ⟨tail, htail, hr⟩ := returns_bind hr
      rw [returns_pure hr]
      exact hstep h.zero Forall₂.nil htail rfl
    · rename_i a hone
      rw [hone] at hjoin
      obtain ⟨x, xs, ha, hjoin1, hxs⟩ := forall₂_cons_left_iff.1 hjoin
      rw [hxs, forall₂_nil_left_iff.1 hjoin1] at hstep
      obtain ⟨tail, htail, hr⟩ := returns_bind hr
      rw [returns_pure hr]
      exact hstep ha Forall₂.nil htail (by simp)
    · rename_i a b htwo
      rw [htwo] at hjoin
      obtain ⟨x, xs, ha, hjoin1, hxs⟩ := forall₂_cons_left_iff.1 hjoin
      obtain ⟨y, ys, hb, hjoin2, rfl⟩ := forall₂_cons_left_iff.1 hjoin1
      rw [hxs, forall₂_nil_left_iff.1 hjoin2] at hstep
      obtain ⟨s, hs, hr⟩ := returns_bind hr
      obtain ⟨tail, htail, hr⟩ := returns_bind hr
      rw [returns_pure hr]
      obtain ⟨hsum, hcarry⟩ := h.halfAdder ha hb hs
      refine hstep hsum (vec_singleton hcarry) htail ?_
      cases x <;> cases y <;> rfl
    · rename_i a b c hthree
      rw [hthree] at hjoin
      obtain ⟨x, xs, ha, hjoin1, hxs⟩ := forall₂_cons_left_iff.1 hjoin
      obtain ⟨y, ys, hb, hjoin2, rfl⟩ := forall₂_cons_left_iff.1 hjoin1
      obtain ⟨z, zs, hc, hjoin3, rfl⟩ := forall₂_cons_left_iff.1 hjoin2
      rw [hxs, forall₂_nil_left_iff.1 hjoin3] at hstep
      obtain ⟨s, hs, hr⟩ := returns_bind hr
      obtain ⟨tail, htail, hr⟩ := returns_bind hr
      rw [returns_pure hr]
      obtain ⟨hsum, hcarry⟩ := h.fullAdder ha hb hc hs
      refine hstep hsum (vec_singleton hcarry) htail ?_
      cases x <;> cases y <;> cases z <;> rfl
    · exact (not_returns_fail hr).elim

theorem columnsValue_replicate_nil (n : Nat) : columnsValue (replicate n []) = 0 := by
  induction n with
  | zero => rfl
  | succ n ih => rw [replicate_succ, columnsValue, ih, columnCount_nil]

/-- The Dadda multiplier computes the product. -/
theorem Sound.umul (h : ev.Sound F R) {v : Nat} (ha : Num R v as m) (hb : Num R w bs n)
    (hr : Returns F (ev.umul as bs) r) : Num R (v + w) r (m * n) := by
  obtain ⟨xs, hxs, rfl, rfl⟩ := ha
  obtain ⟨ys, hys, rfl, rfl⟩ := hb
  obtain ⟨products, hproducts, hr⟩ := returns_bind hr
  obtain ⟨reduced, hreduced, hr⟩ := returns_bind hr
  rw [hxs.length_eq, hys.length_eq] at hproducts
  have hempty : Columns R (xs.length + ys.length)
      (replicate (xs.length + ys.length) ([] : List E)) 0 :=
    ⟨_, forall₂_replicate Forall₂.nil _, length_replicate, columnsValue_replicate_nil _⟩
  have hprod : Columns R (xs.length + ys.length) products
      (xs.zipIdx.foldl (fun v p => v + p.1.toNat * 2 ^ p.2 * toNat ys) 0) := by
    refine returns_foldList ?_ (zipIdx_rel hxs) hempty hproducts
    intro cols m p q e hcols hp hret
    have hrow := h.productRow hys hp.1 (by rw [hp.2.1]; omega) hcols hret
    rwa [hp.2.1] at hrow
  rw [foldl_productRows, Nat.zero_add, pow_zero, Nat.one_mul] at hprod
  have hred : Columns R (xs.length + ys.length) reduced
      (toNat xs * toNat ys) := by
    refine returns_foldList_invariant (P := fun cols => Columns R (xs.length + ys.length) cols
      (toNat xs * toNat ys)) ?_ hprod hreduced
    rintro cols height e ⟨bits, hrel, hlen, hval⟩ hret
    have hstage := h.reduceColumns Forall₂.nil hrel hret
    rwa [columnCount_nil, Nat.zero_add, hlen, hval] at hstage
  obtain ⟨bits, hrel, hlen, hval⟩ := hred
  have hsum := h.sumColumns Forall₂.nil hrel hr
  rwa [columnCount_nil, Nat.zero_add, hlen, hval] at hsum

/-! ### Soundness of unsigned division -/

theorem foldl_reverse_toNat (bs : List Bool) :
    bs.reverse.foldl (fun v b => 2 * v + b.toNat) 0 = toNat bs := by
  rw [foldl_reverse]
  induction bs with
  | nil => rfl
  | cons b bs ih =>
    rw [foldr_cons, ih, toNat_cons]
    omega

/-- The quotient and the remainder of the bits seen so far, in a division by `d`
at width `w`; for a zero divisor only the widths are known. -/
structure DivState (R : E → Bool → Prop) (w d : Nat) (acc : List E × List E)
    (seen : Nat × Nat) : Prop where
  exists_quotient : ∃ q r, Num R seen.1 acc.1 q ∧ Num R w acc.2 r ∧
    (0 < d → r < d ∧ seen.2 = q * d + r)

theorem Num.dropLast (h : Num R (w + 1) v n) : Num R w v.dropLast (n % 2 ^ w) := by
  obtain ⟨bs, hv, hlen, rfl⟩ := h
  have hlen' : v.length - 1 = w := by rw [hv.length_eq, hlen, Nat.add_sub_cancel]
  refine ⟨bs.take w, ?_, by simp [hlen], toNat_take bs w⟩
  rw [dropLast_eq_take, hlen']
  exact forall₂_take _ hv

theorem Sound.uLessThan_num (h : ev.Sound F R) (ha : Num R w as m) (hb : Num R w bs n) {r : E}
    (hr : Returns F (ev.uLessThan as bs) r) : R r (decide (m < n)) := by
  obtain ⟨xs, hxs, rfl, rfl⟩ := ha
  obtain ⟨ys, hys, -, rfl⟩ := hb
  exact (h.uLessThan hxs hys hr).2

/-- One round shifts in a bit and subtracts the divisor if it fits. -/
theorem Sound.divStep (h : ev.Sound F R) {d : Nat} (hd : Num R (w + 1) divisor d) (hdw : d < 2 ^ w)
    (hneg : Num R (w + 1) negDivisor ((2 ^ (w + 1) - d) % 2 ^ (w + 1))) {seen : Nat × Nat}
    (hacc : DivState R w d acc seen) {b : Bool} (he : R e b)
    (hr : Returns F (ev.divStep divisor negDivisor acc e) res) :
    DivState R w d res (seen.1 + 1, 2 * seen.2 + b.toNat) := by
  obtain ⟨q, r, hq, hrem, hinv⟩ := hacc.exists_quotient
  obtain ⟨less, hless, hr⟩ := returns_bind hr
  obtain ⟨bit, hbit, hr⟩ := returns_bind hr
  obtain ⟨difference, hdiff, hr⟩ := returns_bind hr
  obtain ⟨r', hr', hr⟩ := returns_bind hr
  rw [returns_pure hr]
  have hshift := hrem.cons he
  have hbitv := h.not (h.uLessThan_num hshift hd hless) hbit
  have hsel := h.selectBit hbitv hshift (h.add hshift hneg hdiff) hr'
  refine ⟨_, _, hq.cons hbitv, hsel.dropLast, fun hpos => ?_⟩
  obtain ⟨hlt, heq⟩ := hinv hpos
  have hb2 : b.toNat < 2 := Bool.toNat_lt b
  have hpow : 2 ^ (w + 1) = 2 * 2 ^ w := pow_succ' 2 w
  have hdmod : (2 ^ (w + 1) - d) % 2 ^ (w + 1) = 2 ^ (w + 1) - d :=
    mod_eq_of_lt (by omega)
  by_cases hfit : b.toNat + 2 * r < d
  · rw [decide_eq_true hfit, Bool.not_true, if_neg Bool.false_ne_true, mod_eq_of_lt (by omega)]
    refine ⟨hfit, ?_⟩
    rw [heq, Bool.toNat_false]
    ring
  · have hsum : (b.toNat + 2 * r + (2 ^ (w + 1) - d)) % 2 ^ (w + 1) = b.toNat + 2 * r - d := by
      have hsplit : b.toNat + 2 * r + (2 ^ (w + 1) - d) =
          b.toNat + 2 * r - d + 2 ^ (w + 1) := by omega
      rw [hsplit, add_mod_right, mod_eq_of_lt (by omega)]
    rw [decide_eq_false hfit, Bool.not_false, if_pos rfl, hdmod, hsum, mod_eq_of_lt (by omega)]
    refine ⟨by omega, ?_⟩
    rw [heq, Bool.toNat_true]
    have hexp : (1 + 2 * q) * d = d + 2 * (q * d) := by ring
    omega

theorem foldl_divSeen (l : List Bool) (p : Nat × Nat) :
    l.foldl (fun seen b => (seen.1 + 1, 2 * seen.2 + b.toNat)) p =
      (p.1 + l.length, l.foldl (fun v b => 2 * v + b.toNat) p.2) := by
  induction l generalizing p with
  | nil => rfl
  | cons b l ih =>
    rw [foldl_cons, ih, foldl_cons, length_cons]
    simp only [Prod.mk.injEq, and_true]
    omega

section

variable (h : ev.Sound F R)
include h

theorem Sound.constVector_num (w : Nat) (b : Bool) :
    Num R w (ev.constVector w b) (if b then 2 ^ w - 1 else 0) := by
  refine ⟨_, h.constVector w b, length_replicate, ?_⟩
  cases b
  · exact toNat_replicate_false w
  · exact toNat_replicate_true w

theorem Sound.orReduce_num (hv : Num R w v n) {r : E} (hr : Returns F (ev.orReduce v) r) :
    R r (decide (n ≠ 0)) := by
  obtain ⟨bs, hbs, -, rfl⟩ := hv
  have hany := h.orReduce hbs hr
  have heq : bs.any id = decide (toNat bs ≠ 0) := by
    rw [Bool.eq_iff_iff, decide_eq_true_iff]
    exact any_id_iff bs
  rwa [heq] at hany

theorem Sound.zeroExtend_num {w' : Nat} (hv : Num R w v n) (hr : Returns F (ev.zeroExtend v w') r) :
    Num R w' r n := by
  obtain ⟨bs, hbs, rfl, rfl⟩ := hv
  obtain ⟨hle, hres⟩ := h.zeroExtend hbs hr
  refine ⟨_, hres, by simp; omega, ?_⟩
  rw [toNat_append, toNat_replicate_false, Nat.mul_zero, Nat.add_zero]

/-- The loop of the division. -/
theorem Sound.divLoop {d : Nat} (hd : Num R (w + 1) divisor d) (hdw : d < 2 ^ w)
    (hneg : Num R (w + 1) negDivisor ((2 ^ (w + 1) - d) % 2 ^ (w + 1))) {n : List E} {v x : Nat}
    (hn : Num R v n x) (hr : Returns F (foldList (ev.divStep divisor negDivisor)
      ([], ev.constVector w false) n.reverse) acc) : DivState R w d acc (v, x) := by
  obtain ⟨xs, hxs, rfl, rfl⟩ := hn
  have hinit : DivState R w d ([], ev.constVector w false) (0, 0) := by
    refine ⟨0, 0, ⟨[], Forall₂.nil, rfl, rfl⟩, h.constVector_num w false, ?_⟩
    intro hpos
    exact ⟨hpos, (Nat.zero_mul d).symm⟩
  have hfold : DivState R w d acc
      (xs.reverse.foldl (fun seen b => (seen.1 + 1, 2 * seen.2 + b.toNat)) (0, 0)) := by
    refine returns_foldList ?_ (rel_reverse hxs) hinit hr
    intro a seen e b res hq he hret
    exact h.divStep hd hdw hneg hq he hret
  rwa [foldl_divSeen, foldl_reverse_toNat, length_reverse, Nat.zero_add] at hfold

/-- Long division computes quotient and remainder; by zero it gives all ones and
zero. -/
theorem Sound.udivMod {n : List E} {v x y : Nat} (hn : Num R v n x) (hd : Num R w d y)
    (hr : Returns F (ev.udivMod n d) res) :
    Num R v res.1 (if y = 0 then 2 ^ v - 1 else x / y) ∧
      Num R w res.2 (if y = 0 then 0 else x % y) := by
  obtain ⟨nonzero, hnonzero, hr⟩ := returns_bind hr
  obtain ⟨divisor, hdivisor, hr⟩ := returns_bind hr
  obtain ⟨negDivisor, hnegDivisor, hr⟩ := returns_bind hr
  obtain ⟨acc, hacc, hr⟩ := returns_bind hr
  obtain ⟨quotient, hquotient, hr⟩ := returns_bind hr
  obtain ⟨remainder, hremainder, hr⟩ := returns_bind hr
  rw [returns_pure hr]
  rw [hd.length_eq] at hdivisor hacc
  have hnz := h.orReduce_num hd hnonzero
  have hdiv := h.zeroExtend_num hd hdivisor
  have hstate := h.divLoop hdiv hd.lt (h.neg hdiv hnegDivisor) hn hacc
  obtain ⟨q, r, hq, hrem, hinv⟩ := hstate.exists_quotient
  rw [hq.length_eq] at hquotient
  rw [hrem.length_eq] at hremainder
  have hresq := h.selectBit hnz (h.constVector_num v true) hq hquotient
  have hresr := h.selectBit hnz (h.constVector_num w false) hrem hremainder
  by_cases hy : y = 0
  · rw [decide_eq_false (not_not.2 hy), if_neg Bool.false_ne_true] at hresq hresr
    rw [if_pos hy, if_pos hy]
    exact ⟨hresq, hresr⟩
  · obtain ⟨hlt, heq⟩ := hinv (Nat.pos_of_ne_zero hy)
    dsimp only at heq
    rw [decide_eq_true hy, if_pos rfl] at hresq hresr
    rw [if_neg hy, if_neg hy]
    have hdivq : x / y = q := by
      rw [heq, Nat.mul_comm, mul_add_div (Nat.pos_of_ne_zero hy), div_eq_of_lt hlt, Nat.add_zero]
    have hmodr : x % y = r := by
      rw [heq, Nat.mul_comm, mul_add_mod, mod_eq_of_lt hlt]
    rw [hdivq, hmodr]
    exact ⟨hresq, hresr⟩

end

/-! ### Soundness of the signed operations -/

/-- The vector stands for the bit vector. -/
abbrev Rep (R : E → Bool → Prop) (v : List E) (b : Bits) : Prop := Vec R v b.toBools

theorem Num.rep (h : Num R w v n) (hw : b.width = w) (hn : b.val = n) : Rep R v b := by
  subst hw hn
  exact h.vec

theorem Rep.num (h : Rep R v b) : Num R b.width v b.val :=
  ⟨b.toBools, h, b.toBools_length, b.toNat_toBools⟩

theorem Rep.length_eq (h : Rep R v b) : v.length = b.width :=
  h.num.length_eq

/-- The last element is the sign bit. -/
theorem Num.sign (h : Num R w v n) (he : v.getLast? = some e) :
    0 < w ∧ R e (decide (2 ^ w ≤ 2 * n)) := by
  obtain ⟨bs, hv, rfl, rfl⟩ := h
  obtain ⟨b, hb, hR⟩ := forall₂_getLast? hv he
  obtain ⟨init, rfl⟩ := getLast?_eq_some_iff.1 hb
  have hlt := toNat_lt init
  have hbit : decide (2 ^ (init ++ [b]).length ≤ 2 * toNat (init ++ [b])) = b := by
    rw [toNat_append, length_append, length_singleton, pow_succ']
    cases b
    · simp
      omega
    · simp
  rw [hbit]
  exact ⟨by simp, hR⟩

theorem toInt_neg_iff (b : Bits) : b.toInt < 0 ↔ 2 ^ b.width ≤ 2 * b.val := by
  have hlt := b.isLt
  unfold toInt
  split <;> omega

theorem Rep.sign (h : Rep R v b) (he : v.getLast? = some e) :
    0 < b.width ∧ R e (decide (b.toInt < 0)) := by
  rw [decide_eq_decide.2 (toInt_neg_iff b)]
  exact h.num.sign he

theorem sLessThan_bits (a b : Bits) (h : a.width = b.width) :
    ((decide (a.toInt < 0) && !decide (b.toInt < 0)) ||
      (!(!decide (a.toInt < 0) && decide (b.toInt < 0)) && decide (a.val < b.val))) = a.slt b := by
  have ha := a.isLt
  have hb := b.isLt
  rw [slt, Bool.eq_iff_iff]
  simp only [Bool.or_eq_true, Bool.and_eq_true, Bool.not_eq_true', decide_eq_true_iff,
    Bool.and_eq_false_iff, Bool.not_eq_false', decide_eq_false_iff_not]
  unfold toInt
  rw [h] at ha ⊢
  split <;> split <;> omega

/-- A signed comparison looks at the signs before the magnitudes. -/
theorem Sound.sLessThan (h : ev.Sound F R) (ha : Rep R as a) (hb : Rep R bs b) {r : E}
    (hr : Returns F (ev.sLessThan as bs) r) : R r (a.slt b) := by
  unfold Evaluator.sLessThan at hr
  split at hr
  · rename_i sa sb hsa hsb
    have hra := (ha.sign hsa).2
    have hrb := (hb.sign hsb).2
    obtain ⟨nb, hnb, hr⟩ := returns_bind hr
    obtain ⟨aNeg, haNeg, hr⟩ := returns_bind hr
    obtain ⟨na, hna, hr⟩ := returns_bind hr
    obtain ⟨bNeg, hbNeg, hr⟩ := returns_bind hr
    obtain ⟨notB, hnotB, hr⟩ := returns_bind hr
    obtain ⟨lt, hlt, hr⟩ := returns_bind hr
    obtain ⟨rest, hrest, hr⟩ := returns_bind hr
    obtain ⟨hlen, hult⟩ := h.uLessThan ha hb hlt
    rw [toNat_toBools, toNat_toBools] at hult
    rw [toBools_length, toBools_length] at hlen
    have hres := h.or (h.and hra (h.not hrb hnb) haNeg)
      (h.and (h.not (h.and (h.not hra hna) hrb hbNeg) hnotB) hult hrest) hr
    rwa [sLessThan_bits a b hlen] at hres
  · exact (not_returns_fail hr).elim

/-- `Abs` gives the absolute value as an unsigned number. -/
theorem Sound.abs (h : ev.Sound F R) (hv : Rep R v b) (hr : Returns F (ev.abs v) r) :
    Num R b.width r b.toInt.natAbs := by
  unfold Evaluator.abs at hr
  split at hr
  · exact (not_returns_fail hr).elim
  · rename_i sign hsign
    obtain ⟨n, hn, hr⟩ := returns_bind hr
    have hres := h.selectBit (hv.sign hsign).2 hv.num (h.neg hv.num hn) hr
    have hlt := b.isLt
    have heq : (if decide (b.toInt < 0) = true then (2 ^ b.width - b.val) % 2 ^ b.width
        else b.val) = b.toInt.natAbs := by
      have hiff := toInt_neg_iff b
      split
      · rename_i hneg
        rw [decide_eq_true_iff, hiff] at hneg
        rw [mod_eq_of_lt (by omega), toInt, if_neg (by omega)]
        omega
      · rename_i hneg
        rw [decide_eq_true_iff, hiff] at hneg
        rw [toInt, if_pos (by omega)]
        omega
    rwa [heq] at hres

/-- Repeating the sign bit is sign extension. -/
theorem signExtend_rep (hv : Rep R v b) (hr : Returns F (signExtend v w) r) :
    b.width ≤ w ∧ Rep R r (b.signExtend w) := by
  obtain ⟨sign, hsign, hle, hvec⟩ := signExtend_sound hv hr
  rw [toBools_length] at hle hvec
  refine ⟨hle, ?_⟩
  have hnum : Num (· = ·) b.width b.toBools b.val :=
    ⟨_, forall₂_same.2 fun _ _ => rfl, b.toBools_length, b.toNat_toBools⟩
  have hneg := (hnum.sign hsign).2
  have hpow : 2 ^ w = 2 ^ b.width * 2 ^ (w - b.width) := by rw [← pow_add, Nat.add_sub_cancel' hle]
  have hpos := Nat.two_pow_pos (w - b.width)
  refine Num.rep (w := w) ⟨_, hvec, by simp; omega, rfl⟩ rfl ?_
  rw [signExtend_val hle, toNat_append, toNat_toBools, toBools_length]
  by_cases hs : 2 ^ b.width ≤ 2 * b.val
  · rw [hneg, decide_eq_true hs, if_neg (by omega), toNat_replicate_true, hpow,
      Nat.mul_sub, Nat.mul_one]
  · rw [hneg, decide_eq_false hs, if_pos (by omega), toNat_replicate_false, Nat.mul_zero,
      Nat.add_zero]

theorem ofInt_val_modEq (w : Nat) (i : Int) : ((ofInt w i).val : Int) ≡ i [ZMOD (2 ^ w : Nat)] := by
  have hpos : (0 : Int) < (2 ^ w : Nat) := by exact_mod_cast Nat.two_pow_pos w
  have hnn := Int.emod_nonneg i hpos.ne'
  rw [ofInt, ofNat_val, Int.natCast_mod, Int.toNat_of_nonneg hnn]
  exact (Int.mod_modEq _ _).trans (Int.mod_modEq _ _)

theorem ofInt_val_of_modEq {i : Int} (h : (n : Int) ≡ i [ZMOD (2 ^ w : Nat)]) :
    (ofInt w i).val = n % 2 ^ w := by
  have hpos : (0 : Int) < (2 ^ w : Nat) := by exact_mod_cast Nat.two_pow_pos w
  have heq : i % (2 ^ w : Nat) = ((n % 2 ^ w : Nat) : Int) := by
    rw [Int.natCast_mod]
    exact h.symm
  rw [ofInt, ofNat_val, heq, Int.toNat_natCast, mod_mod]

theorem bitSlice_num {width : Nat} (hv : Num R w v n) (hr : Returns F (bitSlice v 0 width) r) :
    width ≤ w ∧ Num R width r (n % 2 ^ width) := by
  obtain ⟨bs, hbs, rfl, rfl⟩ := hv
  obtain ⟨hle, hres⟩ := bitSlice_sound hbs hr
  rw [Nat.zero_add] at hle
  refine ⟨hle, _, hres, ?_, ?_⟩
  · simp [hle]
  · rw [drop_zero, toNat_take]

/-- The signed product is the product of the magnitudes with the sign put back. -/
theorem Sound.smul (h : ev.Sound F R) (ha : Rep R as a) (hb : Rep R bs b)
    (hr : Returns F (ev.smul as bs) r) : Rep R r (a.smul b) := by
  obtain ⟨tempA, htempA, hr⟩ := returns_bind hr
  obtain ⟨tempB, htempB, hr⟩ := returns_bind hr
  obtain ⟨result, hresult, hr⟩ := returns_bind hr
  rw [ha.length_eq, hb.length_eq] at htempA htempB hr
  obtain ⟨-, hra⟩ := signExtend_rep ha htempA
  obtain ⟨-, hrb⟩ := signExtend_rep hb htempB
  have hmul := h.umul hra.num hrb.num hresult
  obtain ⟨-, hslice⟩ := bitSlice_num hmul hr
  refine hslice.rep rfl (ofInt_val_of_modEq ?_)
  -- both factors are known modulo a larger power of two than the product needs
  have hdvd : ((2 ^ (a.width + b.width) : Nat) : Int) ∣
      ((2 ^ (max a.width b.width * 2) : Nat) : Int) := by
    rw [Int.natCast_dvd_natCast]
    exact Nat.pow_dvd_pow 2 (by omega)
  rw [cast_mul]
  exact ((ofInt_val_modEq _ _).of_dvd hdvd).mul ((ofInt_val_modEq _ _).of_dvd hdvd)

/-- A magnitude with a sign. -/
def signed (negative : Bool) (n : Nat) : Int := if negative then -(n : Int) else n

/-- Truncated division divides the magnitudes. -/
theorem tdiv_eq_signed (x y : Int) :
    x.tdiv y = signed (decide (x < 0) ^^ decide (y < 0)) (x.natAbs / y.natAbs) := by
  have hpos : ∀ n : Nat, ¬Int.ofNat n < 0 := fun n => not_lt.2 (Int.natCast_nonneg n)
  cases x <;> cases y <;>
    simp only [hpos, Int.negSucc_lt_zero, decide_true, decide_false, Bool.xor_true, Bool.xor_false,
      Bool.not_true, Bool.not_false] <;>
    rfl

theorem tmod_eq_signed (x y : Int) : x.tmod y = signed (decide (x < 0)) (x.natAbs % y.natAbs) := by
  have hpos : ∀ n : Nat, ¬Int.ofNat n < 0 := fun n => not_lt.2 (Int.natCast_nonneg n)
  cases x <;> cases y <;>
    simp only [hpos, Int.negSucc_lt_zero, decide_true, decide_false] <;>
    rfl

/-- The vector of a number with a sign, in two's complement. -/
theorem ofInt_signed_val (hn : n < 2 ^ w) (s : Bool) :
    (ofInt w (signed s n)).val = if s then (2 ^ w - n) % 2 ^ w else n := by
  cases s with
  | false =>
    have hcast : ((n : Nat) : Int) ≡ signed false n [ZMOD (2 ^ w : Nat)] := Int.ModEq.refl _
    rw [ofInt_val_of_modEq hcast, mod_eq_of_lt hn, if_neg Bool.false_ne_true]
  | true =>
    have hcast : ((2 ^ w - n : Nat) : Int) ≡ signed true n [ZMOD (2 ^ w : Nat)] := by
      rw [cast_sub hn.le, signed, if_pos rfl, ← Int.zero_sub]
      exact (Int.modEq_zero_iff_dvd.2 dvd_rfl).sub_right _
    rw [ofInt_val_of_modEq hcast, if_pos rfl]

theorem toInt_natAbs_eq_zero (b : Bits) : b.toInt.natAbs = 0 ↔ b.val = 0 := by
  have hlt := b.isLt
  unfold toInt
  split <;> omega

/-- The extreme values are a sign bit over its complement. -/
theorem Sound.signVector_num (h : ev.Sound F R) (hw : 0 < w) (s : Bool) :
    Num R w (if s then signVector w ev.one ev.zero else signVector w ev.zero ev.one)
      (if s then 2 ^ (w - 1) else 2 ^ (w - 1) - 1) := by
  unfold signVector
  rw [if_neg (Nat.ne_of_gt hw), if_neg (Nat.ne_of_gt hw)]
  cases s with
  | false =>
    refine ⟨_, vec_append (forall₂_replicate h.one (w - 1)) (vec_singleton h.zero),
      by simp; omega, ?_⟩
    simp [toNat_append, toNat_replicate_true]
  | true =>
    refine ⟨_, vec_append (forall₂_replicate h.zero (w - 1)) (vec_singleton h.one),
      by simp; omega, ?_⟩
    simp [toNat_append]

theorem sdiv_zero_val (hb : b.val = 0) (ha : 0 < a.width) :
    (a.sdiv b).val = if decide (a.toInt < 0) then 2 ^ (a.width - 1) else 2 ^ (a.width - 1) - 1 := by
  have hz : b.isZero = true := by simp [isZero, hb]
  have hpow : 2 ^ (a.width - 1) < 2 ^ a.width := Nat.pow_lt_pow_right (by omega) (by omega)
  rw [Bits.sdiv, if_pos hz, if_neg (by omega)]
  by_cases hneg : a.toInt < 0
  · rw [if_pos hneg, decide_eq_true hneg, if_pos rfl, minSigned, if_neg (by omega),
      powerOfTwo_val (by omega)]
  · have hlt : 2 ^ (a.width - 1) - 1 < 2 ^ a.width := lt_of_le_of_lt (sub_le _ _) hpow
    rw [if_neg hneg, decide_eq_false hneg, if_neg Bool.false_ne_true, ofNat_val_of_lt hlt]

/-- An operand whose absolute value was computed has a sign bit. -/
theorem signBit_sound (hv : Rep R v b) (hr : Returns F (ev.abs v) r) :
    0 < b.width ∧ R (v.getLast?.getD ev.zero) (decide (b.toInt < 0)) := by
  unfold Evaluator.abs at hr
  split at hr
  · exact (not_returns_fail hr).elim
  · rename_i sign hsign
    rw [hsign, Option.getD_some]
    exact hv.sign hsign

/-- A select on two bits whose upper bit picks the default. -/
theorem Sound.selectTwoOr (h : ev.Sound F R) {e0 e1 : E} {b0 b1 : Bool} (he0 : R e0 b0)
    (he1 : R e1 b1) {v0 v1 : List E} {n0 n1 : Nat} (h0 : Num R w v0 n0) (h1 : Num R w v1 n1)
    (hd : Num R w d n) (hr : Returns F (ev.select [e0, e1] [v0, v1] (some d)) r) :
    Num R w r (if b1 then n else if b0 then n1 else n0) := by
  obtain ⟨bs0, hv0, hw0, rfl⟩ := h0
  obtain ⟨bs1, hv1, hw1, rfl⟩ := h1
  obtain ⟨bsd, hvd, hwd, rfl⟩ := hd
  have hs : Vec R [e0, e1] [b0, b1] := Forall₂.cons he0 (vec_singleton he1)
  have hc : Forall₂ (Vec R) [v0, v1] [bs0, bs1] :=
    Forall₂.cons hv0 (Forall₂.cons hv1 Forall₂.nil)
  have hw : ∀ c ∈ [bs0, bs1], c.length = w := by
    intro c hmem
    rcases mem_pair.1 hmem with rfl | rfl
    · exact hw0
    · exact hw1
  have hres := h.select_some hs hc hw hvd hwd hr
  cases b1 with
  | true => cases b0 <;> exact ⟨bsd, hres, hwd, rfl⟩
  | false =>
    cases b0 with
    | true => exact ⟨bs1, hres, hw1, rfl⟩
    | false => exact ⟨bs0, hres, hw0, rfl⟩

/-- `SDivMod` computes the quotient and the remainder of the magnitudes and fixes
up the signs. -/
theorem Sound.sdivMod (h : ev.Sound F R) {n : List E} (hn : Rep R n a) (hd : Rep R d b)
    (hr : Returns F (ev.sdivMod n d) res) : Rep R res.1 (a.sdiv b) ∧ Rep R res.2 (a.smod b) := by
  obtain ⟨nonzero, hnonzero, hr⟩ := returns_bind hr
  obtain ⟨absN, habsN, hr⟩ := returns_bind hr
  obtain ⟨absD, habsD, hr⟩ := returns_bind hr
  obtain ⟨result, hresult, hr⟩ := returns_bind hr
  obtain ⟨negRemainder, hnegRemainder, hr⟩ := returns_bind hr
  obtain ⟨remainder, hremainder, hr⟩ := returns_bind hr
  obtain ⟨differ, hdiffer, hr⟩ := returns_bind hr
  obtain ⟨negQuotient, hnegQuotient, hr⟩ := returns_bind hr
  obtain ⟨quotient, hquotient, hr⟩ := returns_bind hr
  obtain ⟨quotient', hquotient', hr⟩ := returns_bind hr
  rw [returns_pure hr]
  obtain ⟨hwa, hsa⟩ := signBit_sound hn habsN
  obtain ⟨-, hsb⟩ := signBit_sound hd habsD
  have hnz := h.orReduce_num hd.num hnonzero
  obtain ⟨hq, hrem⟩ := h.udivMod (h.abs hn habsN) (h.abs hd habsD) hresult
  have hquot := h.selectBit (h.xor hsa hsb hdiffer) hq (h.neg hq hnegQuotient) hquotient
  have hremr := h.selectBit hsa hrem (h.neg hrem hnegRemainder) hremainder
  rw [hquot.length_eq] at hquotient'
  have hsel := h.selectTwoOr hsa hnz (h.signVector_num hwa false) (h.signVector_num hwa true) hquot
    hquotient'
  refine ⟨hsel.rep (sdiv_width a b) ?_, hremr.rep (smod_width a b) ?_⟩
  · by_cases hb : b.val = 0
    · rw [sdiv_zero_val hb hwa, decide_eq_false (not_not.2 hb), if_neg Bool.false_ne_true]
      rfl
    · have hlt : a.toInt.natAbs / b.toInt.natAbs < 2 ^ a.width :=
        lt_of_le_of_lt (Nat.div_le_self _ _) (h.abs hn habsN).lt
      rw [Bits.sdiv, if_neg (by simpa [isZero] using hb), tdiv_eq_signed,
        ofInt_signed_val hlt, decide_eq_true hb, if_pos rfl,
        if_neg (mt (toInt_natAbs_eq_zero b).1 hb)]
  · by_cases hb : b.val = 0
    · rw [Bits.smod, if_pos (by simpa [isZero] using hb), zero_val,
        if_pos ((toInt_natAbs_eq_zero b).2 hb)]
      simp
    · have hne := mt (toInt_natAbs_eq_zero b).1 hb
      have hlt : a.toInt.natAbs % b.toInt.natAbs < 2 ^ b.width :=
        lt_trans (mod_lt _ (Nat.pos_of_ne_zero hne)) (h.abs hd habsD).lt
      rw [Bits.smod, if_neg (by simpa [isZero] using hb), tmod_eq_signed,
        ofInt_signed_val hlt, if_neg hne]

end Sound

end Xls.Evaluator

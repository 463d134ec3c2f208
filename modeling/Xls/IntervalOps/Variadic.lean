import Xls.IntervalOps.Minimize

/-!
# Xls.IntervalOps.Variadic

`PerformVariadicOp` of `xls/ir/interval_ops.cc`: lift a function of several bit
vectors to interval sets by evaluating it at the bounds of every choice of one
interval per operand.

The function reports whether its ideal value left the output range, and whether
it left it by more than one lap. `Spans` collects what the lifting needs to know
about one choice of intervals; with that for every choice, the result covers the
value at every point (`covers_performVariadicOp`).
-/

namespace Xls

open List Int

/-- An interval set of a width known only at run time. -/
abbrev AnyIntervalSet := Σ w : Nat, IntervalSet w

namespace IntervalOps

open ProperInterval (Mem)
open IntervalSet

/-- `Tonicity`. -/
inductive Tonicity
  | monotone
  | antitone
  deriving DecidableEq

/-- `ArgumentBehavior`. -/
structure ArgumentBehavior where
  tonicity : Tonicity
  sizePreserving : Bool

def monotoneSizePreserving : ArgumentBehavior := ⟨.monotone, true⟩
def monotoneNonSizePreserving : ArgumentBehavior := ⟨.monotone, false⟩
def antitoneSizePreserving : ArgumentBehavior := ⟨.antitone, true⟩
def antitoneNonSizePreserving : ArgumentBehavior := ⟨.antitone, false⟩

/-- `OverflowResult`. -/
structure OverflowResult (w : Nat) where
  result : Nat
  isLt : result < 2 ^ w
  firstOverflowBit : Bool
  secondOverflowBit : Bool

/-- A result that reports no overflow: the overload for functions to `Bits`. -/
def OverflowResult.plain {w : Nat} (n : Nat) : OverflowResult w :=
  ⟨n % 2 ^ w, Bits.mod_two_pow_lt n w, false, false⟩

/-- The bounds of one interval per operand, all operands combined; the first
operand varies fastest. -/
def choices : List AnyIntervalSet → List (List (Nat × Nat))
  | [] => [[]]
  | ⟨_, s⟩ :: rest =>
    (choices rest).flatMap fun c => s.intervals.map fun i => (i.lower, i.upper) :: c

/-- The end of an interval that gives the smaller value. -/
def lowEnd (b : ArgumentBehavior) (p : Nat × Nat) : Nat :=
  match b.tonicity with
  | .monotone => p.1
  | .antitone => p.2

/-- The end of an interval that gives the larger value. -/
def highEnd (b : ArgumentBehavior) (p : Nat × Nat) : Nat :=
  match b.tonicity with
  | .monotone => p.2
  | .antitone => p.1

variable {w : Nat}

/-- The body of the loop over choices: the intervals to add, and whether to stop
because nothing is excluded any more. -/
def boundChoice (calculate : List Nat → OverflowResult w) (behaviors : List ArgumentBehavior)
    (overflowIsSizePreserving : Bool) (choice : List (Nat × Nat)) : List (Interval w) × Bool :=
  let lower := calculate (zipWith lowEnd behaviors choice)
  let upper := calculate (zipWith highEnd behaviors choice)
  if !lower.firstOverflowBit && !upper.firstOverflowBit then
    ([⟨lower.result, upper.result, lower.isLt, upper.isLt⟩], false)
  else if overflowIsSizePreserving then
    ([⟨lower.result, upper.result, lower.isLt, upper.isLt⟩], false)
  else if (lower.firstOverflowBit && upper.firstOverflowBit) || lower.secondOverflowBit ||
      upper.secondOverflowBit || decide (lower.result < upper.result) then
    ([Interval.maximal w], true)
  else
    ([⟨lower.result, 2 ^ w - 1, lower.isLt, Bits.two_pow_sub_one_lt w⟩,
      ⟨0, upper.result, Nat.two_pow_pos w, upper.isLt⟩], false)

/-- `MixedRadixIterate` over the choices. -/
def boundChoices (calculate : List Nat → OverflowResult w) (behaviors : List ArgumentBehavior)
    (overflowIsSizePreserving : Bool) : List (List (Nat × Nat)) → List (Interval w)
  | [] => []
  | c :: cs =>
    let r := boundChoice calculate behaviors overflowIsSizePreserving c
    if r.2 then r.1 else r.1 ++ boundChoices calculate behaviors overflowIsSizePreserving cs

/-- Each operand reduced to five intervals, or to one from the thirteenth on. -/
def minimizeOperands (i : Nat) : List AnyIntervalSet → List AnyIntervalSet
  | [] => []
  | ⟨w, s⟩ :: rest =>
    ⟨w, s.minimizeIntervals (if i < 12 then 5 else 1)⟩ :: minimizeOperands (i + 1) rest

/-- Whether overflow of the only varying operand keeps its size. -/
def overflowIsSizePreserving (behaviors : List ArgumentBehavior) (operands : List AnyIntervalSet) :
    Bool :=
  (behaviors.zip operands).all (fun p => p.1.sizePreserving || p.2.2.isPrecise) &&
    ((behaviors.zip operands).countP fun p => !p.2.2.isPrecise) == 1

/-- The values of operands that are all precise. -/
def preciseValues : List AnyIntervalSet → Result (List Nat)
  | [] => .ok []
  | ⟨_, s⟩ :: rest => do
    let v ← s.getPreciseValue
    let v ← derefOption v
    let vs ← preciseValues rest
    return v :: vs

/-- `PerformVariadicOp`. The loop over choices runs its body at least once, so
an operand without intervals is read past its end. -/
def performVariadicOp (calculate : List Nat → OverflowResult w) (behaviors : List ArgumentBehavior)
    (inputOperands : List AnyIntervalSet) : Result (IntervalSet w) := do
  checkThat (inputOperands.length == behaviors.length)
  let operands := minimizeOperands 0 inputOperands
  if operands.all fun o => o.2.isPrecise then
    let values ← preciseValues operands
    return precise (calculate values).result (calculate values).isLt
  else
    checkThat (operands.all fun o => !o.2.isEmpty)
    let preserving := overflowIsSizePreserving behaviors operands
    let result := normalize (boundChoices calculate behaviors preserving (choices operands))
    return result.minimizeIntervals 16

/-! ### Wrapping intervals -/

variable {x : Nat} {calculate : List Nat → OverflowResult w} {preserving : Bool}

/-- A range of integers shorter than one lap, taken modulo `2 ^ w`, is the
possibly wrapping interval between the reduced ends. -/
theorem covers_of_mod {a b y : Int} {i : Interval w} (hay : a ≤ y) (hyb : y ≤ b)
    (hlap : b - a < 2 ^ w) (hl : (i.lower : Int) = a % 2 ^ w) (hu : (i.upper : Int) = b % 2 ^ w)
    (hx : (x : Int) = y % 2 ^ w) : i.covers x = true := by
  have hpos : (0 : Int) < 2 ^ w := by positivity
  have ha := emod_add_mul_ediv a (2 ^ w)
  have hb := emod_add_mul_ediv b (2 ^ w)
  have hy := emod_add_mul_ediv y (2 ^ w)
  have ha1 := emod_lt_of_pos a hpos
  have hb1 := emod_lt_of_pos b hpos
  have hy1 := emod_lt_of_pos y hpos
  have ha0 := emod_nonneg a hpos.ne'
  have hb0 := emod_nonneg b hpos.ne'
  have hy0 := emod_nonneg y hpos.ne'
  -- the quotients of `y` and `b` exceed that of `a` by at most one
  have hq1 : a / 2 ^ w ≤ y / 2 ^ w := Int.ediv_le_ediv hpos hay
  have hq2 : y / 2 ^ w ≤ b / 2 ^ w := Int.ediv_le_ediv hpos hyb
  have hq3 : b / 2 ^ w ≤ a / 2 ^ w + 1 := by
    by_contra hcon
    have h2 : a / 2 ^ w + 2 ≤ b / 2 ^ w := by omega
    have h3 := Int.mul_le_mul_of_nonneg_left h2 hpos.le
    rw [mul_add] at h3
    omega
  by_cases hw : i.lower ≤ i.upper
  · rw [Interval.covers_iff_of_le hw]
    have hq : b / 2 ^ w = a / 2 ^ w := by
      by_contra hne
      have : b / 2 ^ w = a / 2 ^ w + 1 := by omega
      rw [this, mul_add] at hb
      omega
    have hqy : y / 2 ^ w = a / 2 ^ w := by omega
    rw [hqy] at hy
    rw [hq] at hb
    omega
  · rw [Interval.covers_iff_of_lt (by omega)]
    rcases (show y / 2 ^ w = a / 2 ^ w ∨ y / 2 ^ w = b / 2 ^ w by omega) with hqy | hqy
    · rw [hqy] at hy
      omega
    · rw [hqy] at hy
      omega

/-! ### Soundness of the lifting -/

/-- Bounds that differ in at most one position, a size-preserving one. -/
inductive VariesOnce : List ArgumentBehavior → List Nat → List Nat → Prop
  | here {b bs l h ls} (hb : b.sizePreserving = true) : VariesOnce (b :: bs) (l :: ls) (h :: ls)
  | there {b bs l ls hs} (h : VariesOnce bs ls hs) : VariesOnce (b :: bs) (l :: ls) (l :: hs)

/-- What the overflow flags must say about the ideal values at the two ends
(`los` and `his`) and at a point between them. -/
structure Spans (calculate : List Nat → OverflowResult w) (f : List Nat → Int)
    (behaviors : List ArgumentBehavior) (los xs his : List Nat) : Prop where
  le_left : f los ≤ f xs
  le_right : f xs ≤ f his
  noOverflow : (calculate los).firstOverflowBit = false → (calculate his).firstOverflowBit = false →
    f his - f los < 2 ^ w
  size : VariesOnce behaviors los his → f his - f los < 2 ^ w
  high : (calculate los).firstOverflowBit = false → (calculate his).firstOverflowBit = true →
    (calculate his).secondOverflowBit = false → 0 ≤ f los ∧ f los < 2 ^ w ∧ f his < 2 * 2 ^ w
  low : (calculate los).firstOverflowBit = true → (calculate his).firstOverflowBit = false →
    (calculate los).secondOverflowBit = false → -(2 ^ w) ≤ f los ∧ 0 ≤ f his ∧ f his < 2 ^ w

/-- A point lies between the bounds of a choice. -/
abbrev InChoice (xs : List Nat) (choice : List (Nat × Nat)) : Prop :=
  Forall₂ (fun x p => p.1 ≤ x ∧ x ≤ p.2) xs choice

variable {behaviors : List ArgumentBehavior} {xs : List Nat} {c : List (Nat × Nat)}
  {operands : List AnyIntervalSet}

/-- One choice covers the value at each of its points, when the flag about
size-preserving overflow tells the truth about the choice. -/
theorem rawCovers_boundChoice {f : List Nat → Int} {choice : List (Nat × Nat)}
    (hlow : ((calculate (zipWith lowEnd behaviors choice)).result : Int) =
      f (zipWith lowEnd behaviors choice) % 2 ^ w)
    (hhigh : ((calculate (zipWith highEnd behaviors choice)).result : Int) =
      f (zipWith highEnd behaviors choice) % 2 ^ w)
    (hs : Spans calculate f behaviors (zipWith lowEnd behaviors choice) xs
      (zipWith highEnd behaviors choice))
    (hp : preserving = true → VariesOnce behaviors (zipWith lowEnd behaviors choice)
      (zipWith highEnd behaviors choice)) (hx : (x : Int) = f xs % 2 ^ w) :
    RawCovers (boundChoice calculate behaviors preserving choice).1 x := by
  have hpos : (0 : Int) < 2 ^ w := by positivity
  have hxlt : x < 2 ^ w := by
    have := emod_lt_of_pos (f xs) hpos
    rw [← hx] at this
    exact_mod_cast this
  unfold boundChoice
  generalize zipWith lowEnd behaviors choice = los at *
  generalize zipWith highEnd behaviors choice = his at *
  dsimp only
  split
  · rename_i hno
    simp only [Bool.and_eq_true, Bool.not_eq_true'] at hno
    exact ⟨_, mem_singleton.2 rfl,
      covers_of_mod hs.le_left hs.le_right (hs.noOverflow hno.1 hno.2) hlow hhigh hx⟩
  · rename_i hover
    split
    · rename_i hpre
      exact ⟨_, mem_singleton.2 rfl,
        covers_of_mod hs.le_left hs.le_right (hs.size (hp hpre)) hlow hhigh hx⟩
    · split
      · exact ⟨_, mem_singleton.2 rfl, Interval.covers_maximal hxlt⟩
      · rename_i hbounded
        -- exactly one end overflowed, by one lap, and the ends did not cross
        simp only [Bool.or_eq_true, Bool.and_eq_true, decide_eq_true_eq, not_or, not_and,
          Bool.not_eq_true] at hbounded
        obtain ⟨⟨⟨hboth, hsl⟩, hsh⟩, hcross⟩ := hbounded
        have hle := hs.le_left
        have hge := hs.le_right
        have hle2 : x ≤ 2 ^ w - 1 := by omega
        cases hfl : (calculate los).firstOverflowBit with
        | false =>
          cases hfh : (calculate his).firstOverflowBit with
          | false => exact absurd hover (by simp [hfl, hfh])
          | true =>
            obtain ⟨h0, h1, h2⟩ := hs.high hfl hfh hsh
            rw [emod_eq_of_lt h0 h1] at hlow
            by_cases hfx : f xs < 2 ^ w
            · rw [emod_eq_of_lt (h0.trans hle) hfx] at hx
              refine ⟨_, mem_cons_self, Interval.covers_of_between ?_ hle2⟩
              show (calculate los).result ≤ x
              omega
            · have hx' : (x : Int) = f xs - 2 ^ w := by
                rw [hx, ← sub_emod_right, emod_eq_of_lt (by omega) (by omega)]
              have hh' : ((calculate his).result : Int) = f his - 2 ^ w := by
                rw [hhigh, ← sub_emod_right, emod_eq_of_lt (by omega) (by omega)]
              refine ⟨_, mem_cons_of_mem _ mem_cons_self,
                Interval.covers_of_between (Nat.zero_le x) ?_⟩
              show x ≤ (calculate his).result
              omega
        | true =>
          have hfh : (calculate his).firstOverflowBit = false := hboth hfl
          obtain ⟨h0, h1, h2⟩ := hs.low hfl hfh hsl
          rw [emod_eq_of_lt h1 h2] at hhigh
          by_cases hfx : 0 ≤ f xs
          · rw [emod_eq_of_lt hfx (by omega)] at hx
            refine ⟨_, mem_cons_of_mem _ mem_cons_self,
              Interval.covers_of_between (Nat.zero_le x) ?_⟩
            show x ≤ (calculate his).result
            omega
          · have hx' : (x : Int) = f xs + 2 ^ w := by
              rw [hx, ← add_emod_right, emod_eq_of_lt (by omega) (by omega)]
            have hl' : ((calculate los).result : Int) = f los + 2 ^ w := by
              rw [hlow, ← add_emod_right, emod_eq_of_lt (by omega) (by omega)]
            refine ⟨_, mem_cons_self, Interval.covers_of_between ?_ hle2⟩
            show (calculate los).result ≤ x
            omega

/-- The loop covers what one of its choices covers: it stops early only after
adding the maximal interval. -/
theorem rawCovers_boundChoices {cs : List (List (Nat × Nat))} (hc : c ∈ cs) (hx : x < 2 ^ w)
    (h : RawCovers (boundChoice calculate behaviors preserving c).1 x) :
    RawCovers (boundChoices calculate behaviors preserving cs) x := by
  have hstop : ∀ d, (boundChoice calculate behaviors preserving d).2 = true →
      RawCovers (boundChoice calculate behaviors preserving d).1 x := by
    intro d hd
    unfold boundChoice at hd ⊢
    dsimp only at hd ⊢
    split at hd
    · cases hd
    · split at hd
      · cases hd
      · split at hd
        · rename_i h1 h2 h3
          rw [if_neg h1, if_neg h2, if_pos h3]
          exact ⟨_, mem_singleton.2 rfl, Interval.covers_maximal hx⟩
        · cases hd
  induction cs with
  | nil => simp at hc
  | cons d ds ih =>
    rw [boundChoices]
    split
    · rename_i hs
      exact hstop d hs
    · rw [rawCovers_append]
      rcases mem_cons.1 hc with rfl | hc
      · exact Or.inl h
      · exact Or.inr (ih hc)

/-- Each operand covers its value. -/
abbrev CoversAll (operands : List AnyIntervalSet) (xs : List Nat) : Prop :=
  Forall₂ (fun o x => o.2.Covers x) operands xs

/-- Values covered by the operands lie in one of the choices. -/
theorem exists_choice (h : CoversAll operands xs) : ∃ c ∈ choices operands, InChoice xs c := by
  induction h with
  | nil => exact ⟨[], by simp [choices], Forall₂.nil⟩
  | @cons o x os xs hox _ ih =>
    obtain ⟨c, hc, hin⟩ := ih
    obtain ⟨i, hi, hx⟩ := hox
    refine ⟨(i.lower, i.upper) :: c, ?_, Forall₂.cons hx hin⟩
    unfold choices
    exact mem_flatMap.2 ⟨c, hc, mem_map.2 ⟨i, hi, rfl⟩⟩

theorem forall₂_minimizeOperands (n : Nat) (operands : List AnyIntervalSet) :
    Forall₂ (fun o m => (∀ x, o.2.Covers x → m.2.Covers x) ∧ m.2.isEmpty = o.2.isEmpty ∧
      ∀ i ∈ m.2.intervals, o.2.Covers i.lower ∧ o.2.Covers i.upper)
      operands (minimizeOperands n operands) := by
  induction operands generalizing n with
  | nil => exact Forall₂.nil
  | cons o os ih =>
    obtain ⟨wo, s⟩ := o
    exact Forall₂.cons ⟨fun x => covers_minimizeIntervals _, isEmpty_minimizeIntervals _,
      fun i hi => covers_bounds_minimizeIntervals hi⟩ (ih (n + 1))

theorem coversAll_minimizeOperands {n : Nat} (h : CoversAll operands xs) :
    CoversAll (minimizeOperands n operands) xs := by
  induction h generalizing n with
  | nil => exact Forall₂.nil
  | @cons o x os xs hox _ ih => exact Forall₂.cons (covers_minimizeIntervals _ hox) ih

/-- The ends of a choice of the minimized operands are points of the operands. -/
theorem coversAll_ends {n : Nat} (hlen : operands.length = behaviors.length)
    (hc : c ∈ choices (minimizeOperands n operands)) :
    CoversAll operands (zipWith lowEnd behaviors c) ∧
      CoversAll operands (zipWith highEnd behaviors c) := by
  induction operands generalizing n behaviors c with
  | nil =>
    obtain rfl : behaviors = [] := eq_nil_of_length_eq_zero hlen.symm
    exact ⟨Forall₂.nil, Forall₂.nil⟩
  | cons o os ih =>
    obtain ⟨wo, s⟩ := o
    cases behaviors with
    | nil => simp at hlen
    | cons b bs =>
      unfold minimizeOperands choices at hc
      obtain ⟨d, hd, hc⟩ := mem_flatMap.1 hc
      obtain ⟨i, hi, rfl⟩ := mem_map.1 hc
      obtain ⟨h1, h2⟩ := covers_bounds_minimizeIntervals hi
      obtain ⟨t1, t2⟩ := ih (Nat.succ.inj hlen) hd
      rw [zipWith_cons_cons, zipWith_cons_cons]
      refine ⟨Forall₂.cons ?_ t1, Forall₂.cons ?_ t2⟩
      · unfold lowEnd
        cases b.tonicity <;> assumption
      · unfold highEnd
        cases b.tonicity <;> assumption

theorem preciseValues_of_coversAll (hp : (operands.all fun o => o.2.isPrecise) = true)
    (h : CoversAll operands xs) : preciseValues operands = .ok xs := by
  induction h with
  | nil => rfl
  | @cons o x os xs hox _ ih =>
    obtain ⟨wo, s⟩ := o
    simp only [all_cons, Bool.and_eq_true] at hp
    rw [preciseValues, getPreciseValue_of_covers hp.1 hox]
    simp [derefOption, ih hp.2]

/-- A precise operand offers the same value at both ends. -/
theorem ends_eq_of_isPrecise {s : IntervalSet w} (hp : s.isPrecise = true) {i : ProperInterval w}
    (hi : i ∈ s.intervals) : i.lower = i.upper := by
  unfold isPrecise at hp
  cases hs : s.intervals with
  | nil =>
    rw [hs] at hi
    simp at hi
  | cons a t =>
    rw [hs] at hi hp
    cases t with
    | nil =>
      obtain rfl : i = a := by simpa using hi
      simpa [Interval.isPrecise] using hp
    | cons b t => simp at hp

/-- When every operand is precise the ends of a choice agree. -/
theorem ends_eq_of_precise (hlen : operands.length = behaviors.length)
    (hcount : ((behaviors.zip operands).countP fun p => !p.2.2.isPrecise) = 0)
    (hc : c ∈ choices operands) : zipWith lowEnd behaviors c = zipWith highEnd behaviors c := by
  induction operands generalizing behaviors c with
  | nil =>
    obtain rfl : behaviors = [] := eq_nil_of_length_eq_zero hlen.symm
    rfl
  | cons o os ih =>
    obtain ⟨wo, s⟩ := o
    cases behaviors with
    | nil => simp at hlen
    | cons b bs =>
      unfold choices at hc
      obtain ⟨d, hd, hc⟩ := mem_flatMap.1 hc
      obtain ⟨i, hi, rfl⟩ := mem_map.1 hc
      rw [zip_cons_cons, countP_cons] at hcount
      have hprec : s.isPrecise = true := by
        by_contra hcon
        simp [hcon] at hcount
      have heq := ends_eq_of_isPrecise hprec hi
      rw [zipWith_cons_cons, zipWith_cons_cons, ih (Nat.succ.inj hlen) (by omega) hd]
      simp only [lowEnd, highEnd, heq]

/-- When the flag is set, the ends of a choice differ in one size-preserving
position at most. -/
theorem variesOnce_of_flag (hlen : operands.length = behaviors.length)
    (hflag : overflowIsSizePreserving behaviors operands = true) (hc : c ∈ choices operands) :
    VariesOnce behaviors (zipWith lowEnd behaviors c) (zipWith highEnd behaviors c) := by
  unfold overflowIsSizePreserving at hflag
  rw [Bool.and_eq_true, beq_iff_eq] at hflag
  obtain ⟨hall, hcount⟩ := hflag
  induction operands generalizing behaviors c with
  | nil =>
    obtain rfl : behaviors = [] := eq_nil_of_length_eq_zero hlen.symm
    simp at hcount
  | cons o os ih =>
    obtain ⟨wo, s⟩ := o
    cases behaviors with
    | nil => simp at hlen
    | cons b bs =>
      unfold choices at hc
      obtain ⟨d, hd, hc⟩ := mem_flatMap.1 hc
      obtain ⟨i, hi, rfl⟩ := mem_map.1 hc
      rw [zip_cons_cons, all_cons, Bool.and_eq_true] at hall
      rw [zip_cons_cons, countP_cons] at hcount
      rw [zipWith_cons_cons, zipWith_cons_cons]
      cases hprec : s.isPrecise with
      | true =>
        have heq := ends_eq_of_isPrecise hprec hi
        have hends : lowEnd b (i.lower, i.upper) = highEnd b (i.lower, i.upper) := by
          simp only [lowEnd, highEnd, heq]
        rw [hends]
        refine VariesOnce.there (ih (Nat.succ.inj hlen) hd hall.2 ?_)
        simpa [hprec] using hcount
      | false =>
        have hb : b.sizePreserving = true := by simpa [hprec] using hall.1
        rw [ends_eq_of_precise (Nat.succ.inj hlen) (by simpa [hprec] using hcount) hd]
        exact VariesOnce.here hb

theorem all_not_isEmpty_of_coversAll (h : CoversAll operands xs) :
    (operands.all fun o => !o.2.isEmpty) = true := by
  induction h with
  | nil => rfl
  | cons hox _ ih => simp [isEmpty_eq_false_of_covers hox, ih]

/-- The lifting covers the value at every point of its operands. -/
theorem covers_performVariadicOp {g : List Nat → OverflowResult w} (f : List Nat → Int)
    (hlen : operands.length = behaviors.length)
    (hcalc : ∀ xs, CoversAll operands xs → ((g xs).result : Int) = f xs % 2 ^ w)
    (hspan : ∀ c xs, InChoice xs c → CoversAll operands xs →
      CoversAll operands (zipWith lowEnd behaviors c) →
      CoversAll operands (zipWith highEnd behaviors c) →
      Spans g f behaviors (zipWith lowEnd behaviors c) xs
        (zipWith highEnd behaviors c)) (hxs : CoversAll operands xs) :
    ∃ r, performVariadicOp g behaviors operands = .ok r ∧ r.Covers (g xs).result := by
  have hmin : CoversAll (minimizeOperands 0 operands) xs := coversAll_minimizeOperands hxs
  have hlen' : (minimizeOperands 0 operands).length = behaviors.length := by
    rw [← (forall₂_minimizeOperands 0 operands).length_eq, hlen]
  unfold performVariadicOp
  rw [beq_iff_eq.2 hlen]
  simp only [checkThat_true, Result.ok_bind]
  split
  · rename_i hp
    rw [preciseValues_of_coversAll hp hmin]
    exact ⟨_, rfl, covers_precise.2 rfl⟩
  · rw [all_not_isEmpty_of_coversAll hmin]
    refine ⟨_, rfl, covers_minimizeIntervals 16 ?_⟩
    rw [covers_normalize (g xs).isLt]
    obtain ⟨c, hc, hin⟩ := exists_choice hmin
    obtain ⟨hlo, hhi⟩ := coversAll_ends hlen hc
    exact rawCovers_boundChoices hc (g xs).isLt (rawCovers_boundChoice (hcalc _ hlo)
      (hcalc _ hhi) (hspan c xs hin hxs hlo hhi) (fun hp => variesOnce_of_flag hlen' hp hc)
      (hcalc xs hxs))

end IntervalOps

end Xls

import Mathlib.Order.Defs.LinearOrder
import Mathlib.Logic.Function.Basic
import Mathlib.Tactic

/-!
# Xls.Lib.DecisionDiagram

Ordered decision diagrams kept in one table. A table maps indices to cells; a
cell tests a variable and names the successor for each of its two values. An
index without a cell is a leaf, and only index one is the true leaf.

Under `Canonical` (successors point down, variables increase along every path,
no cell has equal successors, no cell occurs twice) an index is determined by the
Boolean function it denotes: `denote_injective`.
-/

namespace Xls

open Or

/-- A test of a variable with the successors for true and false. -/
@[ext]
structure Cell (V : Type) where
  var : V
  high : Nat
  low : Nat
  deriving DecidableEq, Repr

/-- The successor for one value of the variable. -/
def Cell.branch {V : Type} (c : Cell V) (b : Bool) : Nat := if b then c.high else c.low

/-- A table of cells; an index without a cell is a leaf. -/
abbrev CellTable (V : Type) := Nat → Option (Cell V)

namespace CellTable

variable {V : Type}

/-- The successor of a cell under an assignment. -/
def next (σ : V → Bool) (c : Cell V) : Nat := c.branch (σ c.var)

/-- Follow at most `n` tests from index `i`. -/
def walk (T : CellTable V) (σ : V → Bool) : Nat → Nat → Bool
  | 0, i => i == 1
  | n + 1, i =>
    match T i with
    | none => i == 1
    | some c => walk T σ n (next σ c)

/-- The Boolean function of index `i`; successors point down, so `i` tests are
enough. -/
def denote (T : CellTable V) (σ : V → Bool) (i : Nat) : Bool := walk T σ i i

/-- The index is a leaf or has a cell. -/
def Valid (T : CellTable V) (i : Nat) : Prop := i < 2 ∨ ∃ c, T i = some c

/-- Every variable tested from `i` on is greater than `v`, as far as the first
test tells. -/
def Above [LinearOrder V] (T : CellTable V) (v : V) (i : Nat) : Prop :=
  ∀ c, T i = some c → v < c.var

/-- Every cell of the first table is in the second one. -/
def Extends (T T' : CellTable V) : Prop := ∀ i c, T i = some c → T' i = some c

/-- The conditions under which indices are canonical. -/
structure Canonical [LinearOrder V] (T : CellTable V) : Prop where
  leaf : ∀ i, i < 2 → T i = none
  descends : ∀ {i c}, T i = some c → c.high < i ∧ c.low < i
  closed : ∀ {i c}, T i = some c → T.Valid c.high ∧ T.Valid c.low
  ordered : ∀ {i c}, T i = some c → T.Above c.var c.high ∧ T.Above c.var c.low
  reduced : ∀ {i c}, T i = some c → c.high ≠ c.low
  unique : ∀ {i j c}, T i = some c → T j = some c → i = j

variable {T T' : CellTable V} {i t : Nat} {c : Cell V} {v : V}

theorem denote_leaf (h : T i = none) (σ : V → Bool) : denote T σ i = (i == 1) := by
  cases i with
  | zero => rfl
  | succ i => rw [denote, walk, h]

theorem valid_leaf (h : i < 2) : T.Valid i := inl h

theorem valid_cell (h : T i = some c) : T.Valid i := inr ⟨c, h⟩

theorem Extends.trans {T'' : CellTable V} (h : T.Extends T') (h' : T'.Extends T'') :
    T.Extends T'' :=
  fun i c hc => h' i c (h i c hc)

theorem Valid.mono (h : T.Valid i) (he : T.Extends T') : T'.Valid i := by
  rcases h with h | ⟨c, hc⟩
  · exact inl h
  · exact inr ⟨c, he i c hc⟩

variable [LinearOrder V]

section

variable (h : T.Canonical)
include h

theorem Canonical.next_lt (hc : T i = some c) (σ : V → Bool) : next σ c < i := by
  unfold next Cell.branch
  split
  · exact (h.descends hc).1
  · exact (h.descends hc).2

theorem Canonical.next_valid (hc : T i = some c) (σ : V → Bool) : T.Valid (next σ c) := by
  unfold next Cell.branch
  split
  · exact (h.closed hc).1
  · exact (h.closed hc).2

/-- Walking from the root by the values of the variables reads the function that is denoted. -/
theorem Canonical.walk_eq (σ : V → Bool) {n : Nat} (hi : i ≤ n) : walk T σ n i = denote T σ i := by
  induction n using Nat.strong_induction_on generalizing i with
  | _ n ih =>
    cases n with
    | zero =>
      obtain rfl : i = 0 := by omega
      rfl
    | succ n =>
      cases i with
      | zero =>
        rw [walk, h.leaf 0 (by decide)]
        rfl
      | succ i =>
        rw [denote, walk, walk]
        cases hc : T (i + 1) with
        | none => rfl
        | some c =>
          have hlt := h.next_lt hc σ
          dsimp only
          rw [ih n (by omega) (by omega), ih i (by omega) (by omega)]

theorem Canonical.denote_zero (σ : V → Bool) : denote T σ 0 = false :=
  denote_leaf (h.leaf 0 (by decide)) σ

theorem Canonical.denote_one (σ : V → Bool) : denote T σ 1 = true :=
  denote_leaf (h.leaf 1 (by decide)) σ

theorem Canonical.denote_cell (hc : T i = some c) (σ : V → Bool) :
    denote T σ i = denote T σ (next σ c) := by
  have hlt := h.next_lt hc σ
  cases i with
  | zero => omega
  | succ i =>
    rw [denote, walk, hc]
    exact h.walk_eq σ (by omega)

end

/-! ### Growth -/

/-- What an index denotes does not change when the table grows. -/
theorem denote_extends (h : T.Canonical) (h' : T'.Canonical) (he : T.Extends T') (hi : T.Valid i)
    (σ : V → Bool) : denote T' σ i = denote T σ i := by
  induction i using Nat.strong_induction_on with
  | _ i ih =>
    rcases hi with hi | ⟨c, hc⟩
    · rw [denote_leaf (h.leaf i hi), denote_leaf (h'.leaf i hi)]
    · rw [h.denote_cell hc, h'.denote_cell (he i c hc)]
      exact ih _ (h.next_lt hc σ) (h.next_valid hc σ)

theorem Above.mono (h : T.Above v i) (h' : T'.Canonical) (he : T.Extends T') (hi : T.Valid i) :
    T'.Above v i := by
  intro c hc
  rcases hi with hi | ⟨c', hc'⟩
  · rw [h'.leaf i hi] at hc
    cases hc
  · rw [he i c' hc'] at hc
    cases hc
    exact h c hc'

/-! ### Independence of earlier variables -/

theorem Canonical.above_next (h : T.Canonical) (hc : T i = some c) (σ : V → Bool) :
    T.Above c.var (next σ c) := by
  unfold next Cell.branch
  split
  · exact (h.ordered hc).1
  · exact (h.ordered hc).2

/-- An index whose tests are all above `v` does not depend on `v`. -/
theorem Canonical.denote_update (h : T.Canonical) (hi : T.Above v i) (σ : V → Bool) (b : Bool) :
    denote T (Function.update σ v b) i = denote T σ i := by
  induction i using Nat.strong_induction_on with
  | _ i ih =>
    cases hc : T i with
    | none => rw [denote_leaf hc, denote_leaf hc]
    | some c =>
      have hv := hi c hc
      have hnext : next (Function.update σ v b) c = next σ c := by
        rw [next, next, Function.update_of_ne hv.ne']
      rw [h.denote_cell hc, h.denote_cell hc, hnext]
      exact ih _ (h.next_lt hc σ) fun d hd => hv.trans (h.above_next hc σ d hd)

/-- The cofactors of a cell are its successors. -/
theorem Canonical.denote_cofactor (h : T.Canonical) (hc : T i = some c) (σ : V → Bool) (b : Bool) :
    denote T (Function.update σ c.var b) i = denote T σ (c.branch b) := by
  have hnext : next (Function.update σ c.var b) c = c.branch b := by
    rw [next, Function.update_self]
  rw [h.denote_cell hc, hnext]
  apply h.denote_update
  cases b
  · exact (h.ordered hc).2
  · exact (h.ordered hc).1

/-! ### Canonicity -/

variable {j f : Nat}

/-- A cell depends on its variable: its successors denote different functions. -/
theorem Canonical.cell_depends (h : T.Canonical) (hc : T i = some c)
    (inj : (∀ σ, denote T σ c.high = denote T σ c.low) → c.high = c.low) (hj : T.Above c.var j)
    (heq : ∀ σ, denote T σ i = denote T σ j) : False := by
  refine h.reduced hc (inj fun σ => ?_)
  have hcof : ∀ b, denote T σ (c.branch b) = denote T σ j := by
    intro b
    rw [← h.denote_cofactor hc, heq, h.denote_update hj]
  exact (hcof true).trans (hcof false).symm

/-- Two cells on one variable that denote one function are one cell. -/
theorem Canonical.cell_injective (h : T.Canonical) {d : Cell V} (hc : T i = some c)
    (hd : T j = some d) (hvar : c.var = d.var)
    (inj : ∀ b, (∀ σ, denote T σ (c.branch b) = denote T σ (d.branch b)) → c.branch b = d.branch b)
    (heq : ∀ σ, denote T σ i = denote T σ j) : i = j := by
  have hsucc : ∀ b, c.branch b = d.branch b := by
    intro b
    refine inj b fun σ => ?_
    rw [← h.denote_cofactor hc, ← h.denote_cofactor hd, heq, hvar]
  have hcd : c = d := Cell.ext hvar (hsucc true) (hsucc false)
  subst hcd
  exact h.unique hc hd

/-- Indices that denote the same function are equal. The induction is on a bound
for both indices, since the successors of one cell are compared with each other. -/
theorem Canonical.denote_injective (h : T.Canonical) (hi : T.Valid i) (hj : T.Valid j)
    (heq : ∀ σ, denote T σ i = denote T σ j) : i = j := by
  suffices hind : ∀ n i j, i < n → j < n → T.Valid i → T.Valid j →
      (∀ σ, denote T σ i = denote T σ j) → i = j from
    hind (max i j + 1) i j (by omega) (by omega) hi hj heq
  intro n
  induction n with
  | zero =>
    intro i j hi
    omega
  | succ n ih =>
    intro i j hin hjn hi hj heq
    have hinj : ∀ {k c}, T k = some c → k < n + 1 →
        (∀ σ, denote T σ c.high = denote T σ c.low) → c.high = c.low := by
      intro k c hc hk
      have hd := h.descends hc
      exact ih _ _ (by omega) (by omega) (h.closed hc).1 (h.closed hc).2
    rcases hi with hi | ⟨c, hc⟩
    · rcases hj with hj | ⟨d, hd⟩
      · have h01 := heq fun _ => false
        rw [denote_leaf (h.leaf i hi), denote_leaf (h.leaf j hj)] at h01
        interval_cases i <;> interval_cases j <;> simp_all
      · refine (h.cell_depends hd (hinj hd hjn) ?_ fun σ => (heq σ).symm).elim
        intro e he
        rw [h.leaf i hi] at he
        cases he
    · rcases hj with hj | ⟨d, hd⟩
      · refine (h.cell_depends hc (hinj hc hin) ?_ heq).elim
        intro e he
        rw [h.leaf j hj] at he
        cases he
      · rcases lt_trichotomy c.var d.var with hlt | hvar | hlt
        · refine (h.cell_depends hc (hinj hc hin) ?_ heq).elim
          intro e he
          rw [hd] at he
          cases he
          exact hlt
        · refine h.cell_injective hc hd hvar (fun b => ?_) heq
          have hcd := h.descends hc
          have hdd := h.descends hd
          cases b
          · exact ih c.low d.low (by omega) (by omega) (h.closed hc).2 (h.closed hd).2
          · exact ih c.high d.high (by omega) (by omega) (h.closed hc).1 (h.closed hd).1
        · refine (h.cell_depends hd (hinj hd hjn) ?_ fun σ => (heq σ).symm).elim
          intro e he
          rw [hc] at he
          cases he
          exact hlt

/-! ### Adding a cell -/

/-- A new cell with its own contents keeps the table canonical. -/
theorem Canonical.insert (h : T.Canonical) {n : Nat} (hn : 2 ≤ n) (hnone : T n = none)
    (hdesc : c.high < n ∧ c.low < n) (hval : T.Valid c.high ∧ T.Valid c.low)
    (habove : T.Above c.var c.high ∧ T.Above c.var c.low) (hne : c.high ≠ c.low)
    (hnew : ∀ i, T i ≠ some c) :
    T.Extends (Function.update T n (some c)) ∧
      Canonical (Function.update T n (some c) : CellTable V) := by
  have hold : ∀ i d, T i = some d → Function.update T n (some c) i = some d := by
    intro i d hd
    rw [Function.update_of_ne, hd]
    rintro rfl
    rw [hnone] at hd
    cases hd
  have hinv : ∀ i d, Function.update T n (some c) i = some d → (i = n ∧ d = c) ∨ T i = some d := by
    intro i d hd
    by_cases hi : i = n
    · subst hi
      rw [Function.update_self] at hd
      exact inl ⟨rfl, (Option.some.inj hd).symm⟩
    · rw [Function.update_of_ne hi] at hd
      exact inr hd
  have hup : ∀ {v i}, i ≠ n → T.Above v i →
      Above (Function.update T n (some c) : CellTable V) v i := by
    intro v i hi ha d hd
    rcases hinv i d hd with ⟨rfl, -⟩ | hd
    · exact absurd rfl hi
    · exact ha d hd
  refine ⟨hold, ?_⟩
  constructor
  case leaf =>
    intro i hi
    rw [Function.update_of_ne (by omega), h.leaf i hi]
  case descends =>
    intro i d hd
    rcases hinv i d hd with ⟨rfl, rfl⟩ | hd
    · exact hdesc
    · exact h.descends hd
  case closed =>
    intro i d hd
    rcases hinv i d hd with ⟨rfl, rfl⟩ | hd
    · exact ⟨hval.1.mono hold, hval.2.mono hold⟩
    · exact ⟨(h.closed hd).1.mono hold, (h.closed hd).2.mono hold⟩
  case ordered =>
    intro i d hd
    rcases hinv i d hd with ⟨rfl, rfl⟩ | hd
    · exact ⟨hup (by omega) habove.1, hup (by omega) habove.2⟩
    · -- an old cell cannot point at the new index, where the table had no cell
      have hvalid : ∀ {j}, T.Valid j → j ≠ n := by
        rintro j hj rfl
        rcases hj with hj | ⟨e, he⟩
        · omega
        · rw [hnone] at he
          cases he
      exact ⟨hup (hvalid (h.closed hd).1) (h.ordered hd).1,
        hup (hvalid (h.closed hd).2) (h.ordered hd).2⟩
  case reduced =>
    intro i d hd
    rcases hinv i d hd with ⟨rfl, rfl⟩ | hd
    · exact hne
    · exact h.reduced hd
  case unique =>
    intro i j d hi hj
    rcases hinv i d hi with ⟨rfl, rfl⟩ | hTi
    · rcases hinv j d hj with ⟨rfl, -⟩ | hTj
      · rfl
      · exact absurd hTj (hnew j)
    · rcases hinv j d hj with ⟨rfl, rfl⟩ | hTj
      · exact absurd hTi (hnew i)
      · exact h.unique hTi hTj

/-! ### If-then-else -/

/-- Index `r` denotes the choice between `t` and `f` by `c`, and tests no variable
before theirs. -/
structure IsIte (T : CellTable V) (c t f r : Nat) : Prop where
  validCond : T.Valid c
  validTrue : T.Valid t
  validFalse : T.Valid f
  valid : T.Valid r
  denote : ∀ σ, T.denote σ r = if T.denote σ c then T.denote σ t else T.denote σ f
  above : ∀ v, T.Above v c → T.Above v t → T.Above v f → T.Above v r

theorem above_of_extends (he : T.Extends T') (h : T'.Above v i) : T.Above v i :=
  fun c hc => h c (he i c hc)

/-- An if-then-else stays one when the tables are extended. -/
theorem IsIte.mono {c r : Nat} (hi : T.IsIte c t f r) (h : T.Canonical) (h' : T'.Canonical)
    (he : T.Extends T') : T'.IsIte c t f r where
  validCond := hi.validCond.mono he
  validTrue := hi.validTrue.mono he
  validFalse := hi.validFalse.mono he
  valid := hi.valid.mono he
  denote σ := by
    rw [denote_extends h h' he hi.valid, denote_extends h h' he hi.validCond,
      denote_extends h h' he hi.validTrue, denote_extends h h' he hi.validFalse, hi.denote]
  above v hc ht hf :=
    (hi.above v (above_of_extends he hc) (above_of_extends he ht) (above_of_extends he hf)).mono h'
      he hi.valid

/-! The four choices that need no new cell. -/

theorem Canonical.isIte_true (h : T.Canonical) (ht : T.Valid t) (hf : T.Valid f) :
    T.IsIte 1 t f t :=
  ⟨valid_leaf (by decide), ht, hf, ht, fun σ => by rw [h.denote_one, if_pos rfl],
    fun _ _ htv _ => htv⟩

theorem Canonical.isIte_false (h : T.Canonical) (ht : T.Valid t) (hf : T.Valid f) :
    T.IsIte 0 t f f :=
  ⟨valid_leaf (by decide), ht, hf, hf, fun σ => by rw [h.denote_zero, if_neg Bool.false_ne_true],
    fun _ _ _ hfv => hfv⟩

theorem Canonical.isIte_cond (h : T.Canonical) {c : Nat} (hc : T.Valid c) : T.IsIte c 1 0 c :=
  ⟨hc, valid_leaf (by decide), valid_leaf (by decide), hc,
    fun σ => by rw [h.denote_zero, h.denote_one]; cases T.denote σ c <;> rfl, fun _ hcv _ _ => hcv⟩

theorem isIte_same {c : Nat} (hc : T.Valid c) (ht : T.Valid t) : T.IsIte c t t t :=
  ⟨hc, ht, ht, ht, fun σ => by rw [ite_self], fun _ _ htv _ => htv⟩

/-- The first test of `i`, if any, is not before `v`. -/
def AtLeast (T : CellTable V) (v : V) (i : Nat) : Prop := ∀ c, T i = some c → v ≤ c.var

theorem AtLeast.mono (h : T.AtLeast v i) (h' : T'.Canonical) (he : T.Extends T') (hi : T.Valid i) :
    T'.AtLeast v i := by
  intro c hc
  rcases hi with hi | ⟨c', hc'⟩
  · rw [h'.leaf i hi] at hc
    cases hc
  · rw [he i c' hc'] at hc
    cases hc
    exact h c hc'

/-- The index of the cofactor of `i`, when `v` is not after its first test. -/
def cofactor (T : CellTable V) (v : V) (b : Bool) (i : Nat) : Nat :=
  match T i with
  | some c => if c.var = v then c.branch b else i
  | none => i

theorem cofactor_of_var {b : Bool} (hc : T i = some c) (hv : c.var = v) :
    T.cofactor v b i = c.branch b := by
  rw [cofactor, hc]
  exact if_pos hv

/-- Either the first test is on `v` and the cofactor is a successor, or the index
itself is above `v`. -/
theorem cofactor_cases (hi : T.AtLeast v i) :
    (∃ c, T i = some c ∧ c.var = v ∧ ∀ b, T.cofactor v b i = c.branch b) ∨
      (T.Above v i ∧ ∀ b, T.cofactor v b i = i) := by
  cases hc : T i with
  | none =>
    refine inr ⟨fun c h => ?_, fun b => by rw [cofactor, hc]⟩
    rw [hc] at h
    cases h
  | some c =>
    by_cases hv : c.var = v
    · exact inl ⟨c, rfl, hv, fun b => cofactor_of_var hc hv⟩
    · refine inr ⟨fun d h => ?_, fun b => ?_⟩
      · rw [hc] at h
        cases h
        exact lt_of_le_of_ne (hi c hc) (Ne.symm hv)
      · rw [cofactor, hc]
        exact if_neg hv

/-- The cofactor of an old index does not change when the tables are extended. -/
theorem cofactor_extends (h' : T'.Canonical) (he : T.Extends T') {i : Nat} (hi : T.Valid i) (v : V)
    (b : Bool) : T'.cofactor v b i = T.cofactor v b i := by
  rcases hi with hi | ⟨c, hc⟩
  · have h0 := h'.leaf i hi
    have h1 : T i = none := by
      cases hc : T i with
      | none => rfl
      | some c =>
        rw [he i c hc] at h0
        cases h0
    rw [cofactor, cofactor, h0, h1]
  · rw [cofactor, cofactor, hc, he i c hc]

section

variable (h : T.Canonical)
include h

theorem Canonical.cofactor_valid (hi : T.AtLeast v i) (hval : T.Valid i) (b : Bool) :
    T.Valid (T.cofactor v b i) := by
  rcases cofactor_cases hi with ⟨c, hc, -, hcof⟩ | ⟨-, hcof⟩
  · rw [hcof]
    cases b
    · exact (h.closed hc).2
    · exact (h.closed hc).1
  · rwa [hcof]

theorem Canonical.cofactor_above (hi : T.AtLeast v i) (b : Bool) :
    T.Above v (T.cofactor v b i) := by
  rcases cofactor_cases hi with ⟨c, hc, rfl, hcof⟩ | ⟨habove, hcof⟩
  · rw [hcof]
    cases b
    · exact (h.ordered hc).2
    · exact (h.ordered hc).1
  · rwa [hcof]

theorem Canonical.cofactor_le (hi : T.AtLeast v i) (b : Bool) : T.cofactor v b i ≤ i := by
  rcases cofactor_cases hi with ⟨c, hc, -, hcof⟩ | ⟨-, hcof⟩
  · rw [hcof]
    cases b
    · exact (h.descends hc).2.le
    · exact (h.descends hc).1.le
  · rw [hcof]

theorem Canonical.cofactor_lt (hc : T i = some c) (hv : c.var = v) (b : Bool) :
    T.cofactor v b i < i := by
  rw [cofactor_of_var hc hv]
  cases b
  · exact (h.descends hc).2
  · exact (h.descends hc).1

theorem Canonical.denote_cofactor_self (hi : T.AtLeast v i) (σ : V → Bool) :
    denote T σ (T.cofactor v (σ v) i) = denote T σ i := by
  rcases cofactor_cases hi with ⟨c, hc, rfl, hcof⟩ | ⟨-, hcof⟩
  · rw [hcof, h.denote_cell hc]
    rfl
  · rw [hcof]

/-- Shannon expansion: the choice between the two cofactor choices by `v` is the
choice itself. -/
theorem Canonical.isIte_shannon {c r : Nat} {g : Bool → Nat} (hc : T.Valid c) (ht : T.Valid t)
    (hf : T.Valid f) (hr : T.Valid r) (hcv : T.AtLeast v c) (htv : T.AtLeast v t)
    (hfv : T.AtLeast v f) (hmin : ∀ u, T.Above u c → T.Above u t → T.Above u f → u < v)
    (hcof : ∀ b, T.IsIte (T.cofactor v b c) (T.cofactor v b t) (T.cofactor v b f) (g b))
    (hnode : ∀ σ, T.denote σ r = T.denote σ (g (σ v))) (habove : ∀ u, u < v → T.Above u r) :
    T.IsIte c t f r where
  validCond := hc
  validTrue := ht
  validFalse := hf
  valid := hr
  denote σ := by
    rw [hnode, (hcof (σ v)).denote, h.denote_cofactor_self hcv, h.denote_cofactor_self htv,
      h.denote_cofactor_self hfv]
  above u huc hut huf := habove u (hmin u huc hut huf)

end

end CellTable

end Xls

import Mathlib.Order.CompletePartialOrder
import Mathlib.Data.List.Forall2

/-!
# Xls.Lib.Grow

Computations over a state that only grows. `Grow ε S α` is a state transformer
with failure whose final state is never below its initial one in the order of
`S`; the fact is part of the computation, so sequencing needs no side condition.

Facts about the values of a growing computation are usually stated relative to a
state that comes later: what an index denotes in a table does not change when the
table grows. `Returns F c a` says that some run of `c` ended with `a` in a state
below `F`. With `F` fixed, a relation between results and their meaning in `F`
needs no world argument, and sequencing is inverted by `returns_bind`.
-/

namespace Xls

open List

/-- A state transformer with failure that only moves the state up. -/
structure Grow (ε S : Type) [Preorder S] (α : Type) where
  run : S → Except ε (α × S)
  mono : ∀ s a s', run s = .ok (a, s') → s ≤ s'

namespace Grow

variable {ε S α β : Type} [Preorder S]

protected def pure (a : α) : Grow ε S α where
  run s := .ok (a, s)
  mono s b s' h := by
    cases h
    exact le_refl s

/-- Run `c`, then `f` on its result. -/
def bindRun (c : Grow ε S α) (f : α → Grow ε S β) (s : S) : Except ε (β × S) :=
  match c.run s with
  | .ok (a, s') => (f a).run s'
  | .error e => .error e

variable {c : Grow ε S α} {γ : Type} {f : α → γ → Grow ε S α} {s : S} {a : α} {P : S → α → Prop}
  {xs : List γ}

/-- A run of two actions, one after the other. -/
theorem bindRun_eq_ok {f : α → Grow ε S β} {s'' : S} {b : β} :
    bindRun c f s = .ok (b, s'') ↔ ∃ a s', c.run s = .ok (a, s') ∧ (f a).run s' = .ok (b, s'') := by
  unfold bindRun
  cases hc : c.run s with
  | error e => simp
  | ok p =>
    obtain ⟨a, s'⟩ := p
    constructor
    · intro h
      exact ⟨a, s', rfl, h⟩
    · rintro ⟨a', t, h, h'⟩
      cases h
      exact h'

protected def bind (c : Grow ε S α) (f : α → Grow ε S β) : Grow ε S β where
  run := bindRun c f
  mono s b s'' h := by
    obtain ⟨a, s', h1, h2⟩ := bindRun_eq_ok.1 h
    exact (c.mono s a s' h1).trans ((f a).mono s' b s'' h2)

instance : Monad (Grow ε S) where
  pure := Grow.pure
  bind := Grow.bind

/-- Stop with an error. -/
def fail (e : ε) : Grow ε S α where
  run _ := .error e
  mono _ _ _ h := by cases h

/-- Go on only if the condition holds. -/
def guardThat (e : ε) (cond : Bool) : Grow ε S Unit := if cond then pure () else fail e

/-- Some run of `c` ended with `a` in a state below `F`. -/
def Returns (F : S) (c : Grow ε S α) (a : α) : Prop := ∃ s s', c.run s = .ok (a, s') ∧ s' ≤ F

/-- From every state above `s` the computation returns, with a value that satisfies
`P` in the final state. -/
def Ensures (s : S) (c : Grow ε S α) (P : S → α → Prop) : Prop :=
  ∀ t, s ≤ t → ∃ a t', c.run t = .ok (a, t') ∧ P t' a

/-- A property of values that is kept when the state grows. -/
def Monotonic (P : S → α → Prop) : Prop := ∀ s t a, s ≤ t → P s a → P t a

variable {F : S}

theorem returns_pure {b : α} (h : Returns F (pure a : Grow ε S α) b) : b = a := by
  obtain ⟨s, s', h, -⟩ := h
  cases h
  rfl

/-- A sequenced computation that returned ran its first half and then its
second half. -/
theorem returns_bind {f : α → Grow ε S β} {b : β} (h : Returns F (c >>= f) b) :
    ∃ a, Returns F c a ∧ Returns F (f a) b := by
  obtain ⟨s, s'', h, hF⟩ := h
  obtain ⟨a, s', h1, h2⟩ := bindRun_eq_ok.1 h
  exact ⟨a, ⟨s, s', h1, ((f a).mono _ _ _ h2).trans hF⟩, s', s'', h2, hF⟩

theorem not_returns_fail {e : ε} (h : Returns F (fail e : Grow ε S α) a) : False := by
  obtain ⟨s, s', h, -⟩ := h
  cases h

theorem returns_guardThat {e : ε} {cond : Bool} {u : Unit}
    (h : Returns F (guardThat e cond : Grow ε S Unit) u) : cond = true := by
  cases cond with
  | false => exact (not_returns_fail h).elim
  | true => rfl

theorem ensures_pure (h : ∀ t, s ≤ t → P t a) : Ensures s (pure a : Grow ε S α) P :=
  fun t ht => ⟨a, t, rfl, h t ht⟩

/-- The second half starts where the first one ended. -/
theorem ensures_bind {f : α → Grow ε S β} {Q : S → β → Prop} (hc : Ensures s c P)
    (hf : ∀ t a, s ≤ t → P t a → Ensures t (f a) Q) : Ensures s (c >>= f) Q := by
  intro t ht
  obtain ⟨a, t', h, ha⟩ := hc t ht
  have htt' := c.mono _ _ _ h
  obtain ⟨b, t'', h', hb⟩ := hf t' a (ht.trans htt') ha t' (le_refl t')
  exact ⟨b, t'', bindRun_eq_ok.2 ⟨a, t', h, h'⟩, hb⟩

theorem Ensures.imp {Q : S → α → Prop} (h : Ensures s c P) (hpq : ∀ t a, s ≤ t → P t a → Q t a) :
    Ensures s c Q := by
  intro t ht
  obtain ⟨a, t', hr, ha⟩ := h t ht
  exact ⟨a, t', hr, hpq t' a (ht.trans (c.mono _ _ _ hr)) ha⟩

theorem ensures_guardThat {e : ε} {cond : Bool} (h : cond = true) :
    Ensures s (guardThat e cond : Grow ε S Unit) fun _ _ => True := by
  subst h
  exact ensures_pure fun _ _ => trivial

/-- Run each element's computation in order. -/
def mapList {γ : Type} (f : γ → Grow ε S α) : List γ → Grow ε S (List α)
  | [] => pure []
  | x :: xs => do
    let y ← f x
    let ys ← mapList f xs
    return y :: ys

/-- Thread an accumulator through a list. -/
def foldList {γ : Type} (f : α → γ → Grow ε S α) : α → List γ → Grow ε S α
  | a, [] => pure a
  | a, x :: xs => do
    let a' ← f a x
    foldList f a' xs

/-- An action on every element returns a list of the same length. -/
theorem ensures_mapList {f : γ → Grow ε S α} (hP : Monotonic P)
    (h : ∀ t x, s ≤ t → x ∈ xs → Ensures t (f x) P) :
    Ensures s (mapList f xs) fun t r => r.length = xs.length ∧ ∀ a ∈ r, P t a := by
  induction xs generalizing s with
  | nil => exact ensures_pure fun _ _ => ⟨rfl, by simp⟩
  | cons x xs ih =>
    refine ensures_bind (h s x (le_refl s) mem_cons_self) fun t a ht ha => ?_
    refine ensures_bind (ih fun t' y ht' hy => h t' y (ht.trans ht') (mem_cons_of_mem _ hy))
      fun t' as ht' has => ?_
    refine ensures_pure fun t'' ht'' => ⟨by simp [has.1], ?_⟩
    intro b hb
    rcases mem_cons.1 hb with rfl | hb
    · exact hP _ _ _ (ht'.trans ht'') ha
    · exact hP _ _ _ ht'' (has.2 b hb)

theorem ensures_foldList (hP : Monotonic P)
    (h : ∀ t a x, s ≤ t → P t a → x ∈ xs → Ensures t (f a x) P) (ha : P s a) :
    Ensures s (foldList f a xs) P := by
  induction xs generalizing s a with
  | nil => exact ensures_pure fun _ ht => hP _ _ _ ht ha
  | cons x xs ih =>
    refine ensures_bind (h s a x (le_refl s) ha mem_cons_self) fun t a' ht ha' => ?_
    exact ih (fun t' b y ht' hb hy => h t' b y (ht.trans ht') hb (mem_cons_of_mem _ hy)) ha'

/-- Mapping a computation that respects a relation relates the results. -/
theorem returns_mapList {δ ρ : Type} {f : γ → Grow ε S α} {P : γ → δ → Prop} {Q : α → ρ → Prop}
    {g : δ → ρ} (hf : ∀ x y r, P x y → Returns F (f x) r → Q r (g y)) {ys : List δ}
    (hp : Forall₂ P xs ys) {rs : List α} (h : Returns F (mapList f xs) rs) :
    Forall₂ Q rs (ys.map g) := by
  induction hp generalizing rs with
  | nil =>
    rw [returns_pure h]
    exact Forall₂.nil
  | cons hxy _ ih =>
    obtain ⟨r, hr, h⟩ := returns_bind h
    obtain ⟨rs', hrs, h⟩ := returns_bind h
    rw [returns_pure h]
    exact Forall₂.cons (hf _ _ _ hxy hr) (ih hrs)

/-- Folding a step that respects a relation relates the accumulators. -/
theorem returns_foldList {δ ρ : Type} {P : γ → δ → Prop} {Q : α → ρ → Prop} {g : ρ → δ → ρ}
    (hf : ∀ a b x y r, Q a b → P x y → Returns F (f a x) r → Q r (g b y)) {ys : List δ}
    (hp : Forall₂ P xs ys) {r : α} {b : ρ} (hq : Q a b) (h : Returns F (foldList f a xs) r) :
    Q r (ys.foldl g b) := by
  induction hp generalizing a b with
  | nil =>
    rw [returns_pure h]
    exact hq
  | cons hxy _ ih =>
    obtain ⟨a', ha, h⟩ := returns_bind h
    exact ih (hf _ _ _ _ _ hq hxy ha) h

/-- What every step of a fold preserves holds at its end. -/
theorem returns_foldList_invariant {P : α → Prop} (hf : ∀ a x r, P a → Returns F (f a x) r → P r)
    {r : α} (ha : P a) (h : Returns F (foldList f a xs) r) : P r := by
  induction xs generalizing a with
  | nil =>
    rw [returns_pure h]
    exact ha
  | cons x xs ih =>
    obtain ⟨a', ha', h⟩ := returns_bind h
    exact ih (hf a x a' ha ha') h

/-- A run that ended is one that returned below its own final state. -/
theorem returns_of_run {s' : S} (h : c.run s = .ok (a, s')) (hF : s' ≤ F) : Returns F c a :=
  ⟨s, s', h, hF⟩

end Grow

end Xls

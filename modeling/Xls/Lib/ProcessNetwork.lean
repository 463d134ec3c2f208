import Mathlib.Data.List.Infix
import Mathlib.Logic.Function.Basic

/-!
# Xls.Lib.ProcessNetwork

Networks of deterministic processes that talk over queues. A process takes a step of its
own, writes a value to a channel or reads the value at the front of one; which of these it
does is a function of its state, and only the value of a read comes from outside. If no two
processes write or read the same channel, the order in which the processes are run does not
matter: what a process does in two runs is the same as far as both runs go
(`Run.comparable`), and it is the same to the end if the processes that are not known to have
come equally far cannot go on (`Run.eq_of_stuck`).
-/

namespace Xls.ProcessNetwork

open List Prod

variable {ι σ χ V ℓ : Type}

/-- What a process does in a step; a step of its own has a label. -/
inductive Event (χ V ℓ : Type)
  | internal (label : ℓ)
  | read (channel : χ) (value : V)
  | write (channel : χ) (value : V)

/-- Processes whose steps are determined by their states, up to the value of a read. -/
structure System (ι σ χ V ℓ : Type) where
  step : ι → σ → Event χ V ℓ → σ → Prop
  deterministic : ∀ {i s a a' s₁ s₂}, step i s a s₁ → step i s a' s₂ → a = a' ∧ s₁ = s₂ ∨
    ∃ ch v v', a = .read ch v ∧ a' = .read ch v' ∧ v ≠ v'
  reader : ∀ {i j s t ch v v' s' t'}, step i s (.read ch v) s' → step j t (.read ch v') t' → i = j
  writer : ∀ {i j s t ch v v' s' t'}, step i s (.write ch v) s' → step j t (.write ch v') t' →
    i = j

/-- The states of the processes and the queues of the channels. -/
structure State (ι σ χ V : Type) where
  locals : ι → σ
  queues : χ → List V

section Runs

variable [DecidableEq ι] [DecidableEq χ]

/-- The event can happen, and the queues after it. -/
def Deliver (qs : χ → List V) : Event χ V ℓ → (χ → List V) → Prop
  | .internal _, qs' => qs' = qs
  | .read ch v, qs' => ∃ rest, qs ch = v :: rest ∧ qs' = Function.update qs ch rest
  | .write ch v, qs' => qs' = Function.update qs ch (qs ch ++ [v])

/-- The runs from a state, with what each process did. -/
inductive Run (T : System ι σ χ V ℓ) (s : State ι σ χ V) :
    List (ι × Event χ V ℓ) → State ι σ χ V → Prop
  | start : Run T s [] s
  | step {tr : List (ι × Event χ V ℓ)} {s' : State ι σ χ V} {i : ι} {a : Event χ V ℓ} {t : σ}
      {qs : χ → List V} (hrun : Run T s tr s') (hstep : T.step i (s'.locals i) a t)
      (hdeliver : Deliver s'.queues a qs) :
      Run T s (tr ++ [(i, a)]) ⟨Function.update s'.locals i t, qs⟩

theorem Run.trans {T : System ι σ χ V ℓ} {s s₁ s₂ : State ι σ χ V}
    {tr₁ tr₂ : List (ι × Event χ V ℓ)} (h : Run T s tr₁ s₁) (h' : Run T s₁ tr₂ s₂) :
    Run T s (tr₁ ++ tr₂) s₂ := by
  induction h' with
  | start => rwa [append_nil]
  | step _ hstep hdeliver ih =>
    rw [← append_assoc]
    exact .step ih hstep hdeliver

end Runs

/-! ### The steps of one process -/

/-- The steps of one process, one after the other. -/
def Steps (T : System ι σ χ V ℓ) (i : ι) : σ → List (Event χ V ℓ) → σ → Prop
  | t, [], t' => t' = t
  | t, a :: as, t' => ∃ u, T.step i t a u ∧ Steps T i u as t'

variable {T : System ι σ χ V ℓ} {i : ι} {as : List (Event χ V ℓ)} {bs : List (Event χ V ℓ)}

/-- Steps along a list that is put together. -/
theorem steps_append {t t' : σ} :
    Steps T i t (as ++ bs) t' ↔ ∃ u, Steps T i t as u ∧ Steps T i u bs t' := by
  induction as generalizing t with
  | nil =>
    constructor
    · exact fun h => ⟨t, rfl, h⟩
    · rintro ⟨u, rfl, h⟩
      exact h
  | cons a as ih =>
    constructor
    · rintro ⟨u, hstep, h⟩
      obtain ⟨u', h, h'⟩ := ih.1 h
      exact ⟨u', ⟨u, hstep, h⟩, h'⟩
    · rintro ⟨u', ⟨u, hstep, h⟩, h'⟩
      exact ⟨u, hstep, ih.2 ⟨u', h, h'⟩⟩

theorem System.step_unique {t t₁ t₂ : σ} {a : Event χ V ℓ} (h : T.step i t a t₁)
    (h' : T.step i t a t₂) : t₁ = t₂ := by
  rcases T.deterministic h h' with ⟨-, heq⟩ | ⟨ch, v, v', rfl, hread, hne⟩
  · exact heq
  · cases hread
    exact absurd rfl hne

/-- The same events lead to the same state. -/
theorem Steps.unique {t t₁ t₂ : σ} (h : Steps T i t as t₁) (h' : Steps T i t as t₂) : t₁ = t₂ := by
  induction as generalizing t with
  | nil => rw [h, h']
  | cons a as ih =>
    obtain ⟨u, hstep, h⟩ := h
    obtain ⟨u', hstep', h'⟩ := h'
    rw [T.step_unique hstep hstep'] at h
    exact ih h h'

/-- The events of a process in a run. -/
def eventsOf [DecidableEq ι] (i : ι) (tr : List (ι × Event χ V ℓ)) : List (Event χ V ℓ) :=
  (tr.filter fun p => p.1 = i).map snd

section Events

variable [DecidableEq ι]

theorem eventsOf_append (i : ι) (tr₁ tr₂ : List (ι × Event χ V ℓ)) :
    eventsOf i (tr₁ ++ tr₂) = eventsOf i tr₁ ++ eventsOf i tr₂ := by
  rw [eventsOf, filter_append, map_append]
  rfl

theorem eventsOf_self (i : ι) (a : Event χ V ℓ) : eventsOf i [(i, a)] = [a] := by simp [eventsOf]

theorem eventsOf_ne {j : ι} (h : j ≠ i) (a : Event χ V ℓ) : eventsOf i [(j, a)] = [] := by
  simp [eventsOf, h]

variable {s s' : State ι σ χ V} {tr : List (ι × Event χ V ℓ)}

/-- The events of one process in a run are steps of that process. -/
theorem Run.steps [DecidableEq χ] (h : Run T s tr s') (i : ι) :
    Steps T i (s.locals i) (eventsOf i tr) (s'.locals i) := by
  induction h with
  | start => rfl
  | @step tr s' j a t qs _ hstep _ ih =>
    rw [eventsOf_append]
    by_cases hij : j = i
    · subst hij
      rw [eventsOf_self, steps_append]
      refine ⟨_, ih, t, hstep, ?_⟩
      exact Function.update_self ..
    · rw [eventsOf_ne hij, append_nil]
      show Steps T i _ _ (Function.update s'.locals j t i)
      rw [Function.update_of_ne (Ne.symm hij)]
      exact ih

/-- A process that has no steps does nothing. -/
theorem Run.eventsOf_nil [DecidableEq χ] (h : Run T s tr s') (hi : ∀ t a t', ¬ T.step i t a t') :
    eventsOf i tr = [] := by
  induction h with
  | start => rfl
  | @step tr s' j a t qs _ hstep _ ih =>
    rw [eventsOf_append, ih]
    exact eventsOf_ne (fun hij => hi _ _ _ (hij ▸ hstep)) a

end Events

/-! ### What goes over a channel -/

section Channels

variable [DecidableEq χ]

/-- The values that some events write to a channel. -/
def writes (ch : χ) : List (Event χ V ℓ) → List V
  | [] => []
  | .write ch' v :: as => if ch' = ch then v :: writes ch as else writes ch as
  | .internal _ :: as | .read _ _ :: as => writes ch as

/-- The values that some events read from a channel. -/
def reads (ch : χ) : List (Event χ V ℓ) → List V
  | [] => []
  | .read ch' v :: as => if ch' = ch then v :: reads ch as else reads ch as
  | .internal _ :: as | .write _ _ :: as => reads ch as

/-- The values written along a run that is put together. -/
theorem writes_append (ch : χ) (as bs : List (Event χ V ℓ)) :
    writes ch (as ++ bs) = writes ch as ++ writes ch bs := by
  induction as with
  | nil => rfl
  | cons a as ih =>
    cases a with
    | internal _ => exact ih
    | read _ _ => exact ih
    | write ch' v =>
      rw [cons_append, writes, writes, ih]
      split <;> rfl

/-- The values read along a run that is put together. -/
theorem reads_append (ch : χ) (as bs : List (Event χ V ℓ)) :
    reads ch (as ++ bs) = reads ch as ++ reads ch bs := by
  induction as with
  | nil => rfl
  | cons a as ih =>
    cases a with
    | internal _ => exact ih
    | write _ _ => exact ih
    | read ch' v =>
      rw [cons_append, reads, reads, ih]
      split <;> rfl

variable {s s' : State ι σ χ V} {tr : List (ι × Event χ V ℓ)}

/-- What was in a queue and what was written to it is what was read and what is left. -/
theorem Run.conserves [DecidableEq ι] (h : Run T s tr s') (ch : χ) :
    s.queues ch ++ writes ch (tr.map snd) = reads ch (tr.map snd) ++ s'.queues ch := by
  induction h with
  | start => rw [map_nil, writes, reads, append_nil, nil_append]
  | @step tr s' i a t qs _ _ hdeliver ih =>
    rw [map_append, writes_append, reads_append, ← append_assoc, ih]
    cases a with
    | internal _ =>
      subst hdeliver
      simp [writes, reads]
    | read ch' v =>
      obtain ⟨rest, hqueue, rfl⟩ := hdeliver
      by_cases hch : ch' = ch
      · subst hch
        simp [writes, reads, hqueue]
      · simp [writes, reads, hch, Function.update_of_ne (Ne.symm hch)]
    | write ch' v =>
      subst hdeliver
      by_cases hch : ch' = ch
      · subst hch
        simp [writes, reads]
      · simp [writes, reads, hch, Function.update_of_ne (Ne.symm hch)]

variable {ch : χ}

/-- Only one process writes to a channel. -/
theorem Run.writes_eq [DecidableEq ι] (h : Run T s tr s')
    (hi : ∃ t v t', T.step i t (.write ch v) t') :
    writes ch (tr.map snd) = writes ch (eventsOf i tr) := by
  obtain ⟨t₀, v₀, t₀', hi⟩ := hi
  induction h with
  | start => rfl
  | @step tr s' j a t qs _ hstep _ ih =>
    rw [map_append, writes_append, eventsOf_append, writes_append, ih]
    by_cases hij : j = i
    · subst hij
      rw [eventsOf_self]
      rfl
    · rw [eventsOf_ne hij]
      congr 1
      cases a with
      | internal _ => rfl
      | read _ _ => rfl
      | write ch' v =>
        refine if_neg fun hch => hij ?_
        subst hch
        exact T.writer hstep hi

/-- Nothing is written where nobody writes. -/
theorem Run.writes_nil [DecidableEq ι] (h : Run T s tr s')
    (hi : ¬ ∃ i t v t', T.step i t (.write ch v) t') : writes ch (tr.map snd) = [] := by
  induction h with
  | start => rfl
  | @step tr s' j a t qs _ hstep _ ih =>
    rw [map_append, writes_append, ih]
    cases a with
    | internal _ => rfl
    | read _ _ => rfl
    | write ch' v =>
      refine if_neg fun hch => hi ?_
      subst hch
      exact ⟨j, _, v, t, hstep⟩

/-- Only one process reads from a channel. -/
theorem Run.reads_eq [DecidableEq ι] (h : Run T s tr s')
    (hi : ∃ t v t', T.step i t (.read ch v) t') :
    reads ch (tr.map snd) = reads ch (eventsOf i tr) := by
  obtain ⟨t₀, v₀, t₀', hi⟩ := hi
  induction h with
  | start => rfl
  | @step tr s' j a t qs _ hstep _ ih =>
    rw [map_append, reads_append, eventsOf_append, reads_append, ih]
    by_cases hij : j = i
    · subst hij
      rw [eventsOf_self]
      rfl
    · rw [eventsOf_ne hij]
      congr 1
      cases a with
      | internal _ => rfl
      | write _ _ => rfl
      | read ch' v =>
        refine if_neg fun hch => hij ?_
        subst hch
        exact T.reader hstep hi

/-- Nothing is read where nobody reads. -/
theorem Run.reads_nil [DecidableEq ι] (h : Run T s tr s')
    (hi : ¬ ∃ i t v t', T.step i t (.read ch v) t') : reads ch (tr.map snd) = [] := by
  induction h with
  | start => rfl
  | @step tr s' j a t qs _ hstep _ ih =>
    rw [map_append, reads_append, ih]
    cases a with
    | internal _ => rfl
    | write _ _ => rfl
    | read ch' v =>
      refine if_neg fun hch => hi ?_
      subst hch
      exact ⟨j, _, v, t, hstep⟩

end Channels

/-! ### Two runs -/

/-- One list is the beginning of the other. -/
def Comparable {α : Type} (as bs : List α) : Prop := as <+: bs ∨ bs <+: as

theorem Comparable.append {α : Type} {as bs : List α} (h : Comparable as bs) (cs : List α) :
    Comparable (cs ++ as) (cs ++ bs) :=
  h.imp (prefix_append_right_inj cs).mpr (prefix_append_right_inj cs).mpr

theorem Comparable.getElem?_eq {α : Type} {as bs : List α} (h : Comparable as bs) {k : Nat}
    {a b : α} (ha : as[k]? = some a) (hb : bs[k]? = some b) : a = b := by
  have hbelow : ∀ {cs ds : List α}, cs <+: ds → ∀ {c}, cs[k]? = some c → ds[k]? = some c := by
    rintro cs _ ⟨es, rfl⟩ c hc
    rw [getElem?_append_left (List.getElem?_eq_some_iff.1 hc).1, hc]
  rcases h with h | h
  · exact Option.some.inj ((hbelow h ha).symm.trans hb)
  · exact Option.some.inj (ha.symm.trans (hbelow h hb))

theorem writes_mono [DecidableEq χ] {ch : χ} (h : as <+: bs) : writes ch as <+: writes ch bs := by
  obtain ⟨cs, rfl⟩ := h
  rw [writes_append]
  exact prefix_append _ _

section TwoRuns

variable [DecidableEq ι] [DecidableEq χ] {s s₁ s₂ : State ι σ χ V}
  {tr₁ tr₂ : List (ι × Event χ V ℓ)}

section

variable (h₁ : Run T s tr₁ s₁) (h₂ : Run T s tr₂ s₂)
include h₁ h₂

/-- What the writers did decides what was written. -/
theorem Run.writes_comparable (h : ∀ i, Comparable (eventsOf i tr₁) (eventsOf i tr₂)) (ch : χ) :
    Comparable (writes ch (tr₁.map snd)) (writes ch (tr₂.map snd)) := by
  by_cases hi : ∃ i t v t', T.step i t (.write ch v) t'
  · obtain ⟨i, hi⟩ := hi
    rw [h₁.writes_eq hi, h₂.writes_eq hi]
    exact (h i).imp writes_mono writes_mono
  · rw [h₁.writes_nil hi, h₂.writes_nil hi]
    exact .inl (prefix_refl _)

/-- The next event of a process is that of a run in which the process did more. -/
theorem Run.next_eq (hwrites : ∀ ch, Comparable (writes ch (tr₁.map snd)) (writes ch (tr₂.map snd)))
    {a b : Event χ V ℓ} {t : σ} {qs : χ → List V} {rest : List (Event χ V ℓ)}
    (hstep : T.step i (s₂.locals i) a t) (hdeliver : Deliver s₂.queues a qs)
    (hmore : eventsOf i tr₁ = eventsOf i tr₂ ++ b :: rest) : a = b := by
  have hsteps := h₁.steps i
  rw [hmore, steps_append] at hsteps
  obtain ⟨u, hu, u', hnext, -⟩ := hsteps
  obtain rfl := (h₂.steps i).unique hu
  rcases T.deterministic hstep hnext with ⟨heq, -⟩ | ⟨ch, v, v', rfl, rfl, hne⟩
  · exact heq
  · -- the two values are at the same place of what was ever in the queue
    refine absurd ?_ hne
    obtain ⟨queue, hqueue, -⟩ := hdeliver
    have hleft := h₂.conserves ch
    have hright := h₁.conserves ch
    rw [h₂.reads_eq ⟨_, v, t, hstep⟩, hqueue] at hleft
    rw [h₁.reads_eq ⟨_, v, t, hstep⟩, hmore, reads_append, reads, if_pos rfl] at hright
    refine Comparable.getElem?_eq (k := (reads ch (eventsOf i tr₂)).length)
      (Comparable.append (Or.symm (hwrites ch)) (s.queues ch)) ?_ ?_
    · rw [hleft, getElem?_append_right le_rfl, Nat.sub_self]
      rfl
    · rw [hright, append_assoc, getElem?_append_right le_rfl, Nat.sub_self]
      rfl

/-- What a process does in two runs is the same as far as both go. -/
theorem Run.comparable (i : ι) : Comparable (eventsOf i tr₁) (eventsOf i tr₂) := by
  induction h₂ generalizing i with
  | start => exact .inr <| nil_prefix ..
  | @step tr s' j a t qs hrun hstep hdeliver ih =>
    rw [eventsOf_append]
    by_cases hij : j = i
    · subst hij
      rw [eventsOf_self]
      rcases ih j with h | ⟨rest, hrest⟩
      · exact .inl (h.trans (prefix_append _ _))
      · cases rest with
        | nil =>
          rw [append_nil] at hrest
          rw [← hrest]
          exact .inl (prefix_append _ _)
        | cons b rest =>
          have hab := h₁.next_eq hrun (h₁.writes_comparable hrun ih) hstep hdeliver hrest.symm
          subst hab
          refine .inr ⟨rest, ?_⟩
          rw [append_assoc, ← hrest]
          rfl
    · rw [eventsOf_ne hij, append_nil]
      exact ih i

end

/-- The process can only read from a channel that is empty. -/
def Stuck (T : System ι σ χ V ℓ) (s : State ι σ χ V) (i : ι) : Prop :=
  ∃ ch, s.queues ch = [] ∧ ∀ a t, T.step i (s.locals i) a t → ∃ v, a = .read ch v

/-- In no run does a process do more than where it is stuck, if the other processes do not. -/
theorem Run.prefix_of_stuck (h₁ : Run T s tr₁ s₁) (h₂ : Run T s tr₂ s₂)
    (h : ∀ i, Stuck T s₁ i ∨ eventsOf i tr₂ <+: eventsOf i tr₁) (i : ι) :
    eventsOf i tr₂ <+: eventsOf i tr₁ := by
  induction h₂ generalizing i with
  | start => exact nil_prefix ..
  | @step tr s' j a t qs hrun hstep hdeliver ih =>
    have hbefore : ∀ i, Stuck T s₁ i ∨ eventsOf i tr <+: eventsOf i tr₁ := fun i =>
      (h i).imp id fun hi => by
        rw [eventsOf_append] at hi
        exact (prefix_append _ _).trans hi
    have hbelow := ih hbefore
    rcases h i with hstuck | hi
    · rw [eventsOf_append]
      by_cases hij : j = i
      · subst hij
        rw [eventsOf_self]
        obtain ⟨rest, hrest⟩ := hbelow j
        cases rest with
        | nil =>
          -- the process is where it is stuck, and the queue that it waits for is empty
          rw [append_nil] at hrest
          exfalso
          have hlocal : s'.locals j = s₁.locals j :=
            (hrun.steps j).unique (by rw [hrest]; exact h₁.steps j)
          obtain ⟨ch, hempty, honly⟩ := hstuck
          obtain ⟨v, rfl⟩ := honly a t (hlocal ▸ hstep)
          obtain ⟨queue, hqueue, -⟩ := hdeliver
          have hleft := hrun.conserves ch
          have hright := h₁.conserves ch
          rw [hrun.reads_eq ⟨_, v, t, hstep⟩, hqueue] at hleft
          rw [h₁.reads_eq ⟨_, v, t, hstep⟩, hempty, ← hrest] at hright
          have hwrites : (writes ch (tr.map snd)).length ≤
              (writes ch (tr₁.map snd)).length := by
            by_cases hw : ∃ i t v t', T.step i t (.write ch v) t'
            · obtain ⟨i, hw⟩ := hw
              rw [hrun.writes_eq hw, h₁.writes_eq hw]
              exact (writes_mono (hbelow i)).length_le
            · rw [hrun.writes_nil hw]
              exact Nat.zero_le _
          have hl := congrArg length hleft
          have hr := congrArg length hright
          simp only [length_append, length_cons, length_nil] at hl hr
          omega
        | cons b rest =>
          have hab := h₁.next_eq hrun (h₁.writes_comparable hrun (h₁.comparable hrun)) hstep
            hdeliver hrest.symm
          subst hab
          refine ⟨rest, ?_⟩
          rw [append_assoc, ← hrest]
          rfl
      · rw [eventsOf_ne hij, append_nil]
        exact hbelow i
    · exact hi

/-- Two runs in which each process is stuck in both or did the same lead to the same state. -/
theorem Run.eq_of_stuck (h₁ : Run T s tr₁ s₁) (h₂ : Run T s tr₂ s₂)
    (h : ∀ i, (Stuck T s₁ i ∧ Stuck T s₂ i) ∨ eventsOf i tr₁ = eventsOf i tr₂) :
    s₁ = s₂ ∧ ∀ i, eventsOf i tr₁ = eventsOf i tr₂ := by
  have hevents : ∀ i, eventsOf i tr₁ = eventsOf i tr₂ := by
    intro i
    have hle := h₁.prefix_of_stuck h₂
      (fun j => (h j).imp And.left fun heq => by rw [heq]) i
    have hge := h₂.prefix_of_stuck h₁
      (fun j => (h j).imp And.right fun heq => by rw [heq]) i
    exact hge.eq_of_length_le hle.length_le
  refine ⟨?_, hevents⟩
  have hlocals : s₁.locals = s₂.locals := by
    funext i
    have hsteps := h₂.steps i
    rw [← hevents i] at hsteps
    exact (h₁.steps i).unique hsteps
  have hqueues : s₁.queues = s₂.queues := by
    funext ch
    have hwrites : writes ch (tr₁.map snd) = writes ch (tr₂.map snd) := by
      by_cases hw : ∃ i t v t', T.step i t (.write ch v) t'
      · obtain ⟨i, hw⟩ := hw
        rw [h₁.writes_eq hw, h₂.writes_eq hw, hevents i]
      · rw [h₁.writes_nil hw, h₂.writes_nil hw]
    have hreads : reads ch (tr₁.map snd) = reads ch (tr₂.map snd) := by
      by_cases hr : ∃ i t v t', T.step i t (.read ch v) t'
      · obtain ⟨i, hr⟩ := hr
        rw [h₁.reads_eq hr, h₂.reads_eq hr, hevents i]
      · rw [h₁.reads_nil hr, h₂.reads_nil hr]
    have hleft := h₁.conserves ch
    rw [hwrites, hreads, h₂.conserves ch] at hleft
    exact (append_cancel_left hleft).symm
  cases s₁
  cases s₂
  cases hlocals
  cases hqueues
  rfl

end TwoRuns

end Xls.ProcessNetwork

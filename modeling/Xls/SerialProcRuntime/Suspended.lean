import Xls.ProcInterpreter.Queues
import Xls.SerialProcRuntime

/-!
# Xls.SerialProcRuntime.Suspended

Which instances a network tick runs. The map has one entry for each channel, so an instance
that blocks on a channel on which another is suspended takes its place in the map, and a send
wakes only the later one. As long as no value is sent to a channel with a suspended instance
that is not in the map, every instance runs as far as it can (`runsAll_of_wakesAll`).
-/

namespace Xls.SerialProcRuntime

open ProcInterpreter Result List Option

variable {e : Elaboration}

/-! ### Ticks that were made -/

/-- How the last tick of an instance ended. -/
def lastTick (ticks : List (Nat × TickResult)) (i : Nat) : Option TickExecutionState :=
  ((ticks.filter fun t => t.1 == i).getLast?).map fun t => t.2.executionState

/-- How many activations an instance completed. -/
def completions (ticks : List (Nat × TickResult)) (i : Nat) : Nat :=
  ticks.countP fun t => t.1 == i && t.2.executionState == .completed

/-- The instance is suspended at a receive on the channel, and nothing has woken it. -/
def Suspended (ticks : List (Nat × TickResult)) (s : TickState) (i ch : Nat) : Prop :=
  i ∉ s.readyInstances ∧ lastTick ticks i = some (.blockedOnReceive ch)

theorem lastTick_snoc_self (ticks : List (Nat × TickResult)) (i : Nat) (r : TickResult) :
    lastTick (ticks ++ [(i, r)]) i = some r.executionState := by
  simp [lastTick]

variable {i ch : Nat}

theorem lastTick_snoc_ne (ticks : List (Nat × TickResult)) {j : Nat} (r : TickResult) (h : i ≠ j) :
    lastTick (ticks ++ [(i, r)]) j = lastTick ticks j := by
  simp [lastTick, h]

theorem completions_snoc_self (ticks : List (Nat × TickResult)) (i : Nat) (r : TickResult) :
    completions (ticks ++ [(i, r)]) i =
      completions ticks i + if r.executionState = .completed then 1 else 0 := by
  simp [completions, countP_singleton]

theorem completions_snoc_ne (ticks : List (Nat × TickResult)) {j : Nat} (r : TickResult)
    (h : i ≠ j) : completions (ticks ++ [(i, r)]) j = completions ticks j := by
  simp [completions, h]

/-! ### The map -/

section

variable (blocked : List (Nat × Nat))
include blocked

theorem lookup_erase_self (ch : Nat) : lookup (erase blocked ch) ch = none := by
  simp [lookup, erase, find?_eq_none]

theorem lookup_erase_ne {ch' : Nat} (h : ch ≠ ch') :
    lookup (erase blocked ch) ch' = lookup blocked ch' := by
  unfold lookup erase
  rw [find?_filter]
  congr 2
  funext p
  by_cases hp : p.1 = ch'
  · simp [hp, h.symm]
  · simp [hp]

theorem lookup_insert_self (ch i : Nat) : lookup (insert blocked ch i) ch = some i := by
  simp [lookup, insert]

theorem lookup_insert_ne {ch' : Nat} (i : Nat) (h : ch ≠ ch') :
    lookup (insert blocked ch i) ch' = lookup blocked ch' := by
  rw [← lookup_erase_ne blocked h]
  simp [lookup, insert, h]

end

/-! ### Runs of the loop -/

/-- The states that the loop reaches, with the ticks up to there. -/
inductive Run (e : Elaboration) (s : TickState) : List (Nat × TickResult) → TickState → Prop
  | start : Run e s [] s
  | step {ticks : List (Nat × TickResult)} {s' s'' : TickState} {i : Nat} {r : TickResult}
      (hrun : Run e s ticks s') (hstep : step e s' = .ok (some (i, r, s''))) :
      Run e s (ticks ++ [(i, r)]) s''

variable {s s' : TickState} {ticks : List (Nat × TickResult)} {network : Network}

/-- The loop is a run of steps that ends with no instance ready. -/
theorem run_of_loop {s₀ : TickState} {before : List (Nat × TickResult)} {fuel : Nat}
    (hrun : Run e s₀ before s) (h : loop e fuel s = some (.ok (ticks, s'))) :
    Run e s₀ (before ++ ticks) s' ∧ s'.readyInstances = [] := by
  induction fuel generalizing before ticks s with
  | zero => cases h
  | succ fuel ih =>
    rw [loop] at h
    cases hstep : step e s with
    | error failure =>
      rw [hstep] at h
      cases h
    | ok next =>
      rw [hstep] at h
      cases next with
      | none =>
        cases h
        refine ⟨by rwa [append_nil], ?_⟩
        unfold step at hstep
        split at hstep
        · assumption
        · obtain ⟨_, -, hstep⟩ := bind_eq_ok.1 hstep
          obtain ⟨_, -, hstep⟩ := bind_eq_ok.1 hstep
          obtain ⟨_, -, hstep⟩ := bind_eq_ok.1 hstep
          obtain ⟨_, -, hstep⟩ := bind_eq_ok.1 hstep
          cases hstep
      | some t =>
        obtain ⟨i, r, s₁⟩ := t
        dsimp only at h
        split at h
        · rename_i ticks' s'' hloop
          cases h
          have hih := ih (hrun.step hstep) hloop
          rwa [append_assoc, singleton_append] at hih
        · rename_i hother
          exact absurd h (hother _ _)

/-- In no state of the tick is a value sent to a channel with a suspended instance that the
map does not have. -/
def WakesAll (e : Elaboration) (network : Network) : Prop :=
  ∀ ticks s i r s', Run e (start e network) ticks s → step e s = .ok (some (i, r, s')) →
    ∀ ch, r.executionState = .sentOnChannel ch → ∀ j, Suspended ticks s j ch →
      lookup s.blockedInstances ch = some j

/-! ### The invariant -/

/-- An instance that is not ready: it completed one activation, or it is suspended at an empty
queue and the map has its channel. -/
def Settled (e : Elaboration) (ticks : List (Nat × TickResult)) (s : TickState) (i : Nat) : Prop :=
  (completions ticks i = 1 ∧ lastTick ticks i = some .completed) ∨
    (completions ticks i = 0 ∧ ∃ ch, lastTick ticks i = some (.blockedOnReceive ch) ∧
      ch < e.channels.length ∧ EmptyAt s.network.queues ch ∧
      (lookup s.blockedInstances ch).isSome = true)

structure Invariant (e : Elaboration) (network : Network) (ticks : List (Nat × TickResult))
    (s : TickState) : Prop where
  nodup : s.readyInstances.Nodup
  ready : ∀ i ∈ s.readyInstances, i < e.instances.length ∧ completions ticks i = 0
  settled : ∀ i, i < e.instances.length → i ∉ s.readyInstances → Settled e ticks s i
  entries : ∀ ch j, lookup s.blockedInstances ch = some j →
    j < e.instances.length ∧ Suspended ticks s j ch
  streams : GeneratorsStream e s.network.queues
  stalled : s.progressMade = false → s.network.continuations = network.continuations

theorem invariant_start (h : GeneratorsStream e network.queues) :
    Invariant e network [] (start e network) where
  nodup := nodup_range
  ready i hi := ⟨mem_range.1 hi, rfl⟩
  settled i hi hready := absurd (mem_range.2 hi) hready
  entries ch j hj := by cases hj
  streams := h
  stalled _ := rfl

/-- What a step does before the instance is put somewhere. -/
theorem step_cases {r : TickResult} (h : step e s = .ok (some (i, r, s'))) :
    ∃ rest network io, s.readyInstances = i :: rest ∧
      s' = dispatch ⟨network, rest, s.blockedInstances, s.progressMade || r.progressMade, io⟩ i
        r.executionState ∧ Effect e s.network.queues network.queues r.executionState.written ∧
      (∀ ch, r.executionState = .blockedOnReceive ch →
        ch < e.channels.length ∧ EmptyAt network.queues ch) ∧
      (r.progressMade = false → network.continuations = s.network.continuations) := by
  unfold step at h
  split at h
  · cases h
  · rename_i i' rest hready
    obtain ⟨inst, -, h⟩ := bind_eq_ok.1 h
    obtain ⟨⟨r', network⟩, htick, h⟩ := bind_eq_ok.1 h
    obtain ⟨c, -, h⟩ := bind_eq_ok.1 h
    obtain ⟨_, -, h⟩ := bind_eq_ok.1 h
    cases h
    obtain ⟨inst', -, htick⟩ := bind_eq_ok.1 htick
    obtain ⟨c', hc', htick⟩ := bind_eq_ok.1 htick
    obtain ⟨⟨r'', x⟩, hx, hpure⟩ := bind_eq_ok.1 htick
    cases hpure
    obtain ⟨hqueues, hblocked, hstalled⟩ := tick_effect hx
    refine ⟨rest, _, _, hready, rfl, hqueues, hblocked, fun hprogress => ?_⟩
    have hsame : s.network.continuations.set i c' = s.network.continuations := by
      obtain ⟨hlt, hget⟩ := List.getElem?_eq_some_iff.1 (derefOption_eq_ok.1 hc')
      rw [← hget, set_getElem_self]
    rw [hstalled hprogress]
    exact hsame

section Step

variable {network network' : Network} {ticks : List (Nat × TickResult)} {s s' : TickState}
  {i : Nat} {r : TickResult} {rest : List Nat} {io : Bool}

/-- An instance that was settled stays settled, if its channel is not written and keeps its
entry. -/
theorem Settled.keep {j : Nat} (h : Settled e ticks s j) (hij : i ≠ j)
    (hs : GeneratorsStream e s.network.queues)
    (heffect : Effect e s.network.queues s'.network.queues r.executionState.written)
    (hentry : ∀ ch, lastTick ticks j = some (.blockedOnReceive ch) →
      (lookup s.blockedInstances ch).isSome = true →
      r.executionState.written ≠ some ch ∧ (lookup s'.blockedInstances ch).isSome = true) :
    Settled e (ticks ++ [(i, r)]) s' j := by
  unfold Settled
  rw [completions_snoc_ne ticks r hij, lastTick_snoc_ne ticks r hij]
  rcases h with hdone | ⟨hzero, ch, hlast, hlt, hempty, hsome⟩
  · exact .inl hdone
  · obtain ⟨hwritten, hsome'⟩ := hentry ch hlast hsome
    exact .inr ⟨hzero, ch, hlast, hlt, heffect.empty hs ch hwritten hempty, hsome'⟩

/-- One iteration keeps the invariant, if the send in it wakes every instance that is
suspended on the channel. -/
theorem Invariant.step (h : Invariant e network ticks s)
    (hstep : SerialProcRuntime.step e s = .ok (some (i, r, s')))
    (hwakes : ∀ ch, r.executionState = .sentOnChannel ch → ∀ j, Suspended ticks s j ch →
      lookup s.blockedInstances ch = some j) : Invariant e network (ticks ++ [(i, r)]) s' := by
  obtain ⟨rest, network', io, hready, rfl, heffect, hblocked, hstalled⟩ := step_cases hstep
  have hnodup := h.nodup
  rw [hready, nodup_cons] at hnodup
  obtain ⟨hi, hzero⟩ := h.ready i (by rw [hready]; exact mem_cons_self)
  have hrest : ∀ j ∈ rest, i ≠ j ∧ j < e.instances.length ∧ completions ticks j = 0 := by
    intro j hj
    refine ⟨fun heq => hnodup.1 (heq ▸ hj), h.ready j ?_⟩
    rw [hready]
    exact mem_cons_of_mem _ hj
  have hold : ∀ j, j < e.instances.length → i ≠ j → j ∉ rest → Settled e ticks s j := by
    intro j hj hij hrest
    refine h.settled j hj ?_
    rw [hready]
    exact fun hmem => (mem_cons.1 hmem).elim (fun heq => hij heq.symm) hrest
  have hentry : ∀ ch j, lookup s.blockedInstances ch = some j → i ≠ j ∧ j ∉ rest ∧
      j < e.instances.length ∧ lastTick ticks j = some (.blockedOnReceive ch) := by
    intro ch j hj
    obtain ⟨hlt, hnot, hlast⟩ := h.entries ch j hj
    rw [hready] at hnot
    exact ⟨fun heq => hnot (heq ▸ mem_cons_self), fun hmem => hnot (mem_cons_of_mem _ hmem),
      hlt, hlast⟩
  have hprogress : (s.progressMade || r.progressMade) = false →
      network'.continuations = network.continuations := by
    intro hor
    rw [Bool.or_eq_false_iff] at hor
    exact (hstalled hor.2).trans (h.stalled hor.1)
  have hcount : ∀ j ∈ rest, completions (ticks ++ [(i, r)]) j = 0 := fun j hj => by
    rw [completions_snoc_ne ticks r (hrest j hj).1]
    exact (hrest j hj).2.2
  cases hstate : r.executionState with
  | completed =>
    refine ⟨hnodup.2, fun j hj => ⟨(hrest j hj).2.1, hcount j hj⟩, fun j hj hnot => ?_,
      fun ch j hj => ?_, heffect.streams h.streams, hprogress⟩
    · by_cases hij : i = j
      · subst hij
        left
        rw [completions_snoc_self, lastTick_snoc_self, hzero, if_pos hstate, hstate]
        exact ⟨rfl, rfl⟩
      · refine (hold j hj hij hnot).keep hij h.streams heffect fun ch _ hsome => ?_
        rw [hstate]
        exact ⟨nofun, hsome⟩
    · obtain ⟨hij, hnot, hlt, hlast⟩ := hentry ch j hj
      exact ⟨hlt, hnot, by rw [lastTick_snoc_ne ticks r hij, hlast]⟩
  | blockedOnReceive ch =>
    obtain ⟨hchannel, hempty⟩ := hblocked ch hstate
    refine ⟨hnodup.2, fun j hj => ⟨(hrest j hj).2.1, hcount j hj⟩, fun j hj hnot => ?_,
      fun ch' j hj => ?_, heffect.streams h.streams, hprogress⟩
    · by_cases hij : i = j
      · subst hij
        right
        rw [completions_snoc_self, lastTick_snoc_self, hzero, hstate, if_neg nofun]
        refine ⟨rfl, ch, rfl, hchannel, hempty, ?_⟩
        show (lookup (insert s.blockedInstances ch i) ch).isSome = true
        rw [lookup_insert_self]
        rfl
      · refine (hold j hj hij hnot).keep hij h.streams heffect fun ch' _ hsome => ?_
        refine ⟨by rw [hstate]; exact nofun, ?_⟩
        show (lookup (insert s.blockedInstances ch i) ch').isSome = true
        by_cases hch : ch = ch'
        · subst hch
          rw [lookup_insert_self]
          rfl
        · rwa [lookup_insert_ne _ i hch]
    · change lookup (insert s.blockedInstances ch i) ch' = some j at hj
      by_cases hch : ch = ch'
      · subst hch
        rw [lookup_insert_self] at hj
        cases hj
        exact ⟨hi, hnodup.1, by rw [lastTick_snoc_self, hstate]⟩
      · rw [lookup_insert_ne _ i hch] at hj
        obtain ⟨hij, hnot, hlt, hlast⟩ := hentry ch' j hj
        exact ⟨hlt, hnot, by rw [lastTick_snoc_ne ticks r hij, hlast]⟩
  | sentOnChannel ch =>
    have hself : completions (ticks ++ [(i, r)]) i = 0 := by
      rw [completions_snoc_self, hzero, hstate, if_neg nofun]
    -- an instance that stays suspended is not suspended on the channel of the send
    have hother : ∀ j ch', i ≠ j → j ∉ rest → lastTick ticks j = some (.blockedOnReceive ch') →
        lookup s.blockedInstances ch ≠ some j → ch ≠ ch' := by
      rintro j ch' hij hnot hlast hne rfl
      refine hne (hwakes ch hstate j ⟨?_, hlast⟩)
      rw [hready]
      exact fun hmem => (mem_cons.1 hmem).elim (fun heq => hij heq.symm) hnot
    cases hlookup : lookup s.blockedInstances ch with
    | none =>
      have hdispatch : dispatch ⟨network', rest, s.blockedInstances,
          s.progressMade || r.progressMade, io⟩ i (.sentOnChannel ch) =
          ⟨network', rest ++ [i], s.blockedInstances, s.progressMade || r.progressMade, io⟩ := by
        simp only [dispatch, hlookup]
      rw [hdispatch]
      refine ⟨?_, fun j hj => ?_, fun j hj hnot => ?_, fun ch' j hj => ?_,
        heffect.streams h.streams, hprogress⟩
      · exact nodup_append.mpr ⟨hnodup.2, nodup_singleton i, fun a ha b hb heq =>
          hnodup.1 (mem_singleton.1 hb ▸ heq ▸ ha)⟩
      · rcases mem_append.1 hj with hj | hj
        · exact ⟨(hrest j hj).2.1, hcount j hj⟩
        · rw [mem_singleton.1 hj]
          exact ⟨hi, hself⟩
      · rw [mem_append, mem_singleton, not_or] at hnot
        have hij : i ≠ j := fun heq => hnot.2 heq.symm
        refine (hold j hj hij hnot.1).keep hij h.streams heffect
          fun ch' hlast hsome => ⟨?_, hsome⟩
        rw [hstate]
        intro heq
        exact hother j ch' hij hnot.1 hlast (by rw [hlookup]; nofun) (some.inj heq)
      · obtain ⟨hij, hnot, hlt, hlast⟩ := hentry ch' j hj
        refine ⟨hlt, ?_, by rw [lastTick_snoc_ne ticks r hij, hlast]⟩
        rw [mem_append, mem_singleton, not_or]
        exact ⟨hnot, fun heq => hij heq.symm⟩
    | some woken =>
      obtain ⟨hiw, hwnot, hwlt, hwlast⟩ := hentry ch woken hlookup
      have hdispatch : dispatch ⟨network', rest, s.blockedInstances,
          s.progressMade || r.progressMade, io⟩ i (.sentOnChannel ch) =
          ⟨network', rest ++ [woken, i], erase s.blockedInstances ch,
            s.progressMade || r.progressMade, io⟩ := by
        simp only [dispatch, hlookup]
      have hwzero : completions ticks woken = 0 := by
        rcases hold woken hwlt hiw hwnot with hdone | hsuspended
        · rw [hwlast] at hdone
          cases hdone.2
        · exact hsuspended.1
      rw [hdispatch]
      have hmem : ∀ j, j ∈ rest ++ [woken, i] ↔ j ∈ rest ∨ j = woken ∨ j = i := by simp
      refine ⟨?_, fun j hj => ?_, fun j hj hnot => ?_, fun ch' j hj => ?_,
        heffect.streams h.streams, hprogress⟩
      · refine nodup_append.mpr ⟨hnodup.2, ?_, fun a ha b hb heq => ?_⟩
        · simpa using fun heq : woken = i => hiw heq.symm
        · subst heq
          rcases mem_pair.1 hb with rfl | rfl
          · exact hwnot ha
          · exact hnodup.1 ha
      · rcases (hmem j).1 hj with hj | rfl | rfl
        · exact ⟨(hrest j hj).2.1, hcount j hj⟩
        · exact ⟨hwlt, by rw [completions_snoc_ne ticks r hiw, hwzero]⟩
        · exact ⟨hi, hself⟩
      · change j ∉ rest ++ [woken, i] at hnot
        rw [hmem, not_or, not_or] at hnot
        have hij : i ≠ j := fun heq => hnot.2.2 heq.symm
        refine (hold j hj hij hnot.1).keep hij h.streams heffect
          fun ch' hlast hsome => ?_
        have hne : ch ≠ ch' := by
          refine hother j ch' hij hnot.1 hlast ?_
          rw [hlookup]
          exact fun heq => hnot.2.1 (some.inj heq).symm
        refine ⟨?_, ?_⟩
        · rw [hstate]
          exact fun heq => hne (some.inj heq)
        · show (lookup (erase s.blockedInstances ch) ch').isSome = true
          rwa [lookup_erase_ne _ hne]
      · change lookup (erase s.blockedInstances ch) ch' = some j at hj
        have hne : ch ≠ ch' := by
          rintro rfl
          rw [lookup_erase_self] at hj
          cases hj
        rw [lookup_erase_ne _ hne] at hj
        obtain ⟨hij, hnot, hlt, hlast⟩ := hentry ch' j hj
        refine ⟨hlt, ?_, by rw [lastTick_snoc_ne ticks r hij, hlast]⟩
        show j ∉ rest ++ [woken, i]
        rw [hmem, not_or, not_or]
        refine ⟨hnot, fun heq => ?_, fun heq => hij heq.symm⟩
        rw [heq, hwlast] at hlast
        cases hlast
        exact hne rfl

end Step

theorem Invariant.run (h : GeneratorsStream e network.queues) (hwakes : WakesAll e network)
    (hrun : Run e (start e network) ticks s) : Invariant e network ticks s := by
  induction hrun with
  | start => exact invariant_start h
  | step hrun hstep ih => exact ih.step hstep (hwakes _ _ _ _ _ hrun hstep)

/-! ### Channels with one reader -/

/-- A step is only blocked on a channel that its instance receives from. -/
theorem receives_of_step {r : TickResult} (h : step e s = .ok (some (i, r, s')))
    (hr : r.executionState = .blockedOnReceive ch) : Receives e i ch := by
  unfold step at h
  split at h
  · cases h
  · obtain ⟨inst, hinst, h⟩ := bind_eq_ok.1 h
    obtain ⟨⟨r', network⟩, htick, h⟩ := bind_eq_ok.1 h
    obtain ⟨c, -, h⟩ := bind_eq_ok.1 h
    obtain ⟨_, -, h⟩ := bind_eq_ok.1 h
    cases h
    obtain ⟨inst', hinst', htick⟩ := bind_eq_ok.1 htick
    obtain ⟨c', -, htick⟩ := bind_eq_ok.1 htick
    obtain ⟨⟨r'', x⟩, hx, hpure⟩ := bind_eq_ok.1 htick
    cases hpure
    exact ⟨inst', derefOption_eq_ok.1 hinst', receives_of_tick hx hr⟩

/-- The map has every suspended instance. -/
structure Tracked (e : Elaboration) (ticks : List (Nat × TickResult)) (s : TickState) : Prop where
  receives : ∀ j ch, lastTick ticks j = some (.blockedOnReceive ch) → Receives e j ch
  lookup : ∀ j ch, Suspended ticks s j ch → lookup s.blockedInstances ch = some j

/-- With one reader for a channel, a blocked instance is never displaced. -/
theorem Tracked.step (hsingle : SingleReader e) {ticks : List (Nat × TickResult)}
    {s s' : TickState} {i : Nat} {r : TickResult} (h : Tracked e ticks s)
    (hstep : SerialProcRuntime.step e s = .ok (some (i, r, s'))) :
    Tracked e (ticks ++ [(i, r)]) s' := by
  have hreceives : ∀ j ch, lastTick (ticks ++ [(i, r)]) j = some (.blockedOnReceive ch) →
      Receives e j ch := by
    intro j ch hlast
    by_cases hij : i = j
    · subst hij
      rw [lastTick_snoc_self] at hlast
      exact receives_of_step hstep (some.inj hlast)
    · rw [lastTick_snoc_ne ticks r hij] at hlast
      exact h.receives j ch hlast
  refine ⟨hreceives, fun j ch hsuspended => ?_⟩
  obtain ⟨rest, network', io, hready, rfl, -⟩ := step_cases hstep
  obtain ⟨hnot, hlast⟩ := hsuspended
  have hbefore : i ≠ j → j ∉ rest → SerialProcRuntime.lookup s.blockedInstances ch = some j := by
    intro hij hrest
    refine h.lookup j ch ⟨?_, by rwa [lastTick_snoc_ne ticks r hij] at hlast⟩
    rw [hready]
    exact fun hmem => (mem_cons.1 hmem).elim (fun heq => hij heq.symm) hrest
  cases hstate : r.executionState with
  | completed =>
    rw [hstate] at hnot
    refine hbefore ?_ hnot
    rintro rfl
    rw [lastTick_snoc_self, hstate] at hlast
    cases hlast
  | blockedOnReceive ch' =>
    rw [hstate] at hnot
    show SerialProcRuntime.lookup (insert s.blockedInstances ch' i) ch = some j
    have hi : Receives e i ch' := receives_of_step hstep hstate
    by_cases hch : ch' = ch
    · subst hch
      rw [lookup_insert_self, hsingle i j ch' hi (hreceives j ch' hlast)]
    · rw [lookup_insert_ne _ i hch]
      refine hbefore ?_ hnot
      rintro rfl
      rw [lastTick_snoc_self, hstate] at hlast
      cases hlast
      exact hch rfl
  | sentOnChannel ch' =>
    rw [hstate] at hnot
    have hij : i ≠ j := by
      rintro rfl
      rw [lastTick_snoc_self, hstate] at hlast
      cases hlast
    cases hlookup : SerialProcRuntime.lookup s.blockedInstances ch' with
    | none =>
      simp only [dispatch, hlookup, mem_append, not_or] at hnot ⊢
      exact hbefore hij hnot.1
    | some woken =>
      simp only [dispatch, hlookup, mem_append, mem_cons, not_or] at hnot ⊢
      have hj := hbefore hij hnot.1
      rw [lookup_erase_ne _ ?_]
      · exact hj
      · rintro rfl
        rw [hlookup] at hj
        exact hnot.2.1 (some.inj hj).symm

theorem Tracked.run (hsingle : SingleReader e) (hrun : Run e (start e network) ticks s) :
    Tracked e ticks s := by
  induction hrun with
  | start =>
    refine ⟨fun j ch hlast => ?_, fun j ch hsuspended => ?_⟩
    · cases hlast
    · cases hsuspended.2
  | step hrun hstep ih => exact ih.step hsingle hstep

/-- If no two instances receive on the same channel, every send wakes the instance that is
suspended on its channel. -/
theorem wakesAll_of_singleReader (hsingle : SingleReader e) (network : Network) :
    WakesAll e network :=
  fun _ _ _ _ _ hrun _ ch _ j hsuspended => (Tracked.run hsingle hrun).lookup j ch hsuspended

/-! ### The end of a tick -/

/-- Every instance completed exactly one activation or is suspended at an empty queue; the
flag is only false if no continuation moved; and the channels that are reported are those on
which an instance is suspended. -/
structure RunsAll (e : Elaboration) (network : Network) (ticks : List (Nat × TickResult))
    (s : TickState) : Prop where
  settled : ∀ i, i < e.instances.length →
    (completions ticks i = 1 ∧ lastTick ticks i = some .completed) ∨
      (completions ticks i = 0 ∧ ∃ ch, Suspended ticks s i ch ∧ EmptyAt s.network.queues ch)
  progress : (networkTickResult e s).progressMade = false →
    s.network.continuations = network.continuations
  blocked : ∀ ch, ch ∈ (networkTickResult e s).blockedChannelInstances ↔
    ∃ i, i < e.instances.length ∧ Suspended ticks s i ch

/-- `TickInternal` returns what its loop leaves. -/
theorem tickInternal_eq_ok {fuel : Nat} {network network' : Network} {result : NetworkTickResult} :
    tickInternal e fuel network = some (.ok (result, network')) ↔
      ∃ ticks s, loop e fuel (start e network) = some (.ok (ticks, s)) ∧
        networkTickResult e s = result ∧ s.network = network' := by
  unfold tickInternal
  constructor
  · intro h
    obtain ⟨r, hloop, hr⟩ := map_eq_some_iff.1 h
    obtain ⟨⟨ticks, s⟩, rfl, hs⟩ := bind_eq_ok.1 hr
    cases hs
    exact ⟨ticks, s, hloop, rfl, rfl⟩
  · rintro ⟨ticks, s, hloop, rfl, rfl⟩
    rw [hloop]
    rfl

/-- When the loop ends, every instance has run as far as it can. -/
theorem runsAll_of_loop {network : Network} (hstreams : GeneratorsStream e network.queues)
    (hwakes : WakesAll e network) {fuel : Nat} {ticks : List (Nat × TickResult)} {s : TickState}
    (h : loop e fuel (start e network) = some (.ok (ticks, s))) : RunsAll e network ticks s := by
  obtain ⟨hrun, hready⟩ := run_of_loop .start h
  rw [nil_append] at hrun
  have hinv := Invariant.run hstreams hwakes hrun
  have hnot : ∀ i, i ∉ s.readyInstances := by
    rw [hready]
    exact fun i => not_mem_nil
  refine ⟨fun i hi => ?_, hinv.stalled, fun ch => ?_⟩
  · rcases hinv.settled i hi (hnot i) with hdone | ⟨hzero, ch, hlast, -, hempty, -⟩
    · exact .inl hdone
    · exact .inr ⟨hzero, ch, ⟨hnot i, hlast⟩, hempty⟩
  · show ch ∈ (List.range e.channels.length).filter
      (fun channel => (lookup s.blockedInstances channel).isSome) ↔ _
    rw [mem_filter, mem_range]
    constructor
    · rintro ⟨-, hsome⟩
      obtain ⟨j, hj⟩ := isSome_iff_exists.mp hsome
      exact ⟨j, hinv.entries ch j hj⟩
    · rintro ⟨i, hi, -, hlast⟩
      rcases hinv.settled i hi (hnot i) with hdone | ⟨-, ch', hlast', hlt, -, hsome⟩
      · rw [hlast] at hdone
        cases hdone.2
      · rw [hlast] at hlast'
        cases hlast'
        exact ⟨hlt, hsome⟩

/-- A tick in which every send wakes the instances that are suspended on its channel runs
every instance that can run. -/
theorem runsAll_of_wakesAll {network network' : Network}
    (hstreams : GeneratorsStream e network.queues) (hwakes : WakesAll e network) {fuel : Nat}
    {result : NetworkTickResult}
    (h : tickInternal e fuel network = some (.ok (result, network'))) :
    ∃ ticks s, loop e fuel (start e network) = some (.ok (ticks, s)) ∧
      networkTickResult e s = result ∧ s.network = network' ∧ RunsAll e network ticks s := by
  obtain ⟨ticks, s, hloop, hresult, hnetwork⟩ := tickInternal_eq_ok.1 h
  exact ⟨ticks, s, hloop, hresult, hnetwork, runsAll_of_loop hstreams hwakes hloop⟩

/-- A receive of eight bits; it is the whole activation. -/
def exampleReader : ProcInstance where
  proc := {
    nodes := [⟨.ir (.literal Value.token), [], .token⟩,
      ⟨.receive 0 false true, [0], .tuple [.token, .bits 8]⟩]
    initValues := []
    nextState := [] }
  channelInstance name := if name = 0 then some 0 else none

/-- An activation that sends the number five some times. -/
def exampleWriter (sends : Nat) : ProcInstance where
  proc := {
    nodes := [⟨.ir (.literal Value.token), [], .token⟩,
      ⟨.ir (.literal (.leaf (Bits.ofNat 8 5))), [], .bits 8⟩] ++
        (List.range sends).map fun k => ⟨.send 0 false, [if k = 0 then 0 else k + 1, 1], .token⟩
    initValues := []
    nextState := [] }
  channelInstance name := if name = 0 then some 0 else none

/-- A streaming channel of eight bits between the instances. -/
def exampleElaboration (instances : List ProcInstance) : Elaboration where
  env := ⟨fun _ => [], fun _ _ => .error .check⟩
  callEvents _ _ := ⟨[], []⟩
  channels := [⟨"c", .streaming, "bits[8]", fun v => decide (v.Conforms (.bits 8)), fun _ => ""⟩]
  instances := instances

/-- All procs at their start. -/
def Elaboration.initialNetwork (e : Elaboration) : Network :=
  ⟨e.instances.map fun inst => newContinuation inst.proc, e.channels.map fun _ => .new []⟩

/-- Two instances read the channel and a third sends two values. The first reader is suspended
at the end although its queue has a value, and its channel is not reported. -/
theorem not_runsAll_twoReaders :
    ∃ result network ticks s,
      tickInternal (exampleElaboration [exampleReader, exampleReader, exampleWriter 2]) 10
          (Elaboration.initialNetwork
            (exampleElaboration [exampleReader, exampleReader, exampleWriter 2])) =
        some (.ok (result, network)) ∧
      loop (exampleElaboration [exampleReader, exampleReader, exampleWriter 2]) 10
        (start (exampleElaboration [exampleReader, exampleReader, exampleWriter 2])
          (Elaboration.initialNetwork
            (exampleElaboration [exampleReader, exampleReader, exampleWriter 2]))) =
          some (.ok (ticks, s)) ∧
      Suspended ticks s 0 0 ∧ network.queues.map (·.queue) = [[.leaf (Bits.ofNat 8 5)]] ∧
      result.blockedChannelInstances = [] ∧
      ¬ RunsAll (exampleElaboration [exampleReader, exampleReader, exampleWriter 2])
        (Elaboration.initialNetwork
          (exampleElaboration [exampleReader, exampleReader, exampleWriter 2])) ticks s := by
  refine ⟨_, _, _, _, rfl, rfl, ⟨by decide, by decide⟩, rfl, rfl, fun h => ?_⟩
  have hmem := (h.blocked 0).2 ⟨0, by decide, by decide, by decide⟩
  exact absurd hmem (by decide)

/-- One reader and one send: the reader is woken, and both instances complete. -/
theorem runsAll_oneReader :
    ∃ result network ticks s,
      tickInternal (exampleElaboration [exampleReader, exampleWriter 1]) 10
          (Elaboration.initialNetwork (exampleElaboration [exampleReader, exampleWriter 1])) =
        some (.ok (result, network)) ∧
      loop (exampleElaboration [exampleReader, exampleWriter 1]) 10
        (start (exampleElaboration [exampleReader, exampleWriter 1])
          (Elaboration.initialNetwork (exampleElaboration [exampleReader, exampleWriter 1]))) =
          some (.ok (ticks, s)) ∧ completions ticks 0 = 1 ∧
      RunsAll (exampleElaboration [exampleReader, exampleWriter 1])
        (Elaboration.initialNetwork (exampleElaboration [exampleReader, exampleWriter 1]))
        ticks s := by
  have hstreams : GeneratorsStream (exampleElaboration [exampleReader, exampleWriter 1])
      (Elaboration.initialNetwork
        (exampleElaboration [exampleReader, exampleWriter 1])).queues := by
    rintro (_ | ch) channel q hchannel hq hsome
    · cases hq
      cases hsome
    · cases hq
  have hsingle : SingleReader (exampleElaboration [exampleReader, exampleWriter 1]) := by
    have hreader : ∀ i ch, Receives (exampleElaboration [exampleReader, exampleWriter 1]) i ch →
        i = 0 := by
      rintro (_ | _ | i) ch ⟨inst, hinst, hch⟩
      · rfl
      · cases hinst
        exact absurd hch not_mem_nil
      · cases hinst
    intro i j ch hi hj
    rw [hreader i ch hi, hreader j ch hj]
  obtain ⟨ticks, s, hloop, -, -, hall⟩ := @runsAll_of_wakesAll _ _ _ hstreams
    (wakesAll_of_singleReader hsingle _) 10 _ rfl
  have hcount := congrArg (fun r => r.map fun r => r.toOption.map fun p => completions p.1 0) hloop
  exact ⟨_, _, ticks, s, rfl, hloop, (some.inj (some.inj hcount)).symm, hall⟩

end Xls.SerialProcRuntime

import Xls.Reassociation.Sound
import Mathlib.Logic.Relation

/-!
# Xls.PassBase

Pipelines of passes (`passes/pass_base.h`): compound passes, some of which run to a fixed
point, with their invariant checkers, the passes that are skipped and the bisect limit.
Passes that keep values make pipelines that do (`runNested_keepsValues`); a bisect limit cuts
the run of passes off at a prefix (`runNested_bisectLimit`), and a pipeline reports a change
exactly if one of its passes did (`runNested_reports`).
-/

namespace Xls.PassBase

open List Relation

variable {Ir α β : Type}

/-- `PassOptionsBase`. -/
structure PassOptions where
  skipPasses : List String
  bisectLimit : Option Nat

/-- The IR and `PassResults::invocations`: the name of the pass, and whether it changed the IR. -/
structure PassState (Ir : Type) where
  ir : Ir
  invocations : List (String × Bool)

/-- The `short_name` of a pass and its `RunInternal`. -/
abbrev Pass (Ir : Type) := String × (Ir → Result (Bool × Ir))

abbrev InvariantChecker (Ir : Type) := Ir → Result Unit

/-- The passes of a compound pass in order, some of them compound with their own checkers. -/
inductive Passes (Ir : Type) where
  | nil
  | single (p : Pass Ir) (rest : Passes Ir)
  | compound (shortName : String) (fixedPoint : Bool) (checkers : List (InvariantChecker Ir))
      (passes rest : Passes Ir)

/-- A run that returns nothing when its fuel runs out. -/
abbrev Run (α : Type) := ExceptT Failure Option α

/-- `PassBase::Run`. -/
def Pass.run (nodeCount : Ir → Nat) (p : Pass Ir) (ir : Ir) : Result (Bool × Ir) := do
  let r ← p.2 ir
  if r.1 || nodeCount ir == nodeCount r.2 then return r
  else throw (.status s!"Pass {p.1} indicated IR unchanged, but IR is changed: [Before] {
    nodeCount ir} nodes != [after] {nodeCount r.2} nodes")

/-- `run_invariant_checkers`. -/
def runInvariantCheckers (checkers : List (InvariantChecker Ir)) (ir : Ir) : Result Unit :=
  checkers.forM fun checker => checker ir

/-- The checkers run only if the pass changed something. -/
def checkAfter (checkers : List (InvariantChecker Ir)) (changed : Bool) (ir : Ir) : Result Unit :=
  if changed then runInvariantCheckers checkers ir else return

/-- The loop of `FixedPointCompoundPassBase::RunNested`. -/
def iterate (round : PassState Ir → Run (Bool × PassState Ir)) :
    Nat → Bool → PassState Ir → Run (Bool × PassState Ir)
  | 0, _, _ => none
  | fuel + 1, changed, s => do
    let r ← round s
    if r.1 then iterate round fuel true r.2 else return (changed, r.2)

/-- `RunNested`, given its loop over the passes. -/
def runNested (fuel : Nat) (fixedPoint : Bool) (checkers : List (InvariantChecker Ir))
    (loop : PassState Ir → Run (Bool × PassState Ir)) (s : PassState Ir) :
    Run (Bool × PassState Ir) :=
  let round := fun s => do
    runInvariantCheckers checkers s.ir
    loop s
  if fixedPoint then iterate round fuel false s else round s

/-- The loop of `CompoundPassBase::RunNested` over its passes. -/
def runPasses (nodeCount : Ir → Nat) (options : PassOptions) (fuel : Nat) : Passes Ir →
    List (InvariantChecker Ir) → Bool → PassState Ir → Run (Bool × PassState Ir)
  | .nil, _, changed, s => return (changed, s)
  | .single p rest, checkers, changed, s =>
    if options.bisectLimit.any (decide <| · ≤ s.invocations.length) ||
        options.skipPasses.contains p.1 then
      runPasses nodeCount options fuel rest checkers changed s
    else do
      let r ← p.run nodeCount s.ir
      checkAfter checkers r.1 r.2
      runPasses nodeCount options fuel rest checkers (changed || r.1)
        ⟨r.2, s.invocations ++ [(p.1, r.1)]⟩
  | .compound shortName fixedPoint own passes rest, checkers, changed, s =>
    if options.skipPasses.contains shortName then
      runPasses nodeCount options fuel rest checkers changed s
    else do
      let r ← runNested fuel fixedPoint (checkers ++ own)
        (runPasses nodeCount options fuel passes (checkers ++ own) false) s
      checkAfter checkers r.1 r.2.ir
      runPasses nodeCount options fuel rest checkers (changed || r.1) r.2

theorem bind_eq_pure {x : Run α} {f : α → Run β} {b : β} :
    (x >>= f) = pure b ↔ ∃ a, x = pure a ∧ f a = pure b := by
  constructor
  · intro h
    obtain _ | _ | a := x
    · cases h
    · cases h
    · exact ⟨a, rfl, h⟩
  · rintro ⟨a, rfl, h⟩
    exact h

theorem of_then {x : Run α} {y : Run β} {b : β} (h : (x >>= fun _ => y) = pure b) :
    y = pure b := by
  obtain ⟨_, -, h⟩ := bind_eq_pure.1 h
  exact h

theorem of_lift {x : Result α} {a : α} (h : (liftM x : Run α) = pure a) : x = .ok a :=
  Option.some.inj h

/-! ### What every run keeps -/

/-- The passes of a pipeline that are not compound. -/
def Passes.singles : Passes Ir → List (Pass Ir)
  | .nil => []
  | .single p rest => p :: rest.singles
  | .compound _ _ _ passes rest => passes.singles ++ rest.singles

variable {nodeCount : Ir → Nat} {S : List (Pass Ir)} {n fuel fuel' : Nat} {passes : Passes Ir}
  {options : PassOptions} {fixedPoint changed : Bool} {s : PassState Ir} {skipPasses : List String}
  {r r' : Bool × PassState Ir} {checkers : List (InvariantChecker Ir)}
  {round round' : PassState Ir → Run (Bool × PassState Ir)}

section Rule

variable {Q : PassState Ir → Bool → PassState Ir → Prop} (hrefl : ∀ s, Q s false s)
  (htrans : ∀ s t u c c', Q s c t → Q t c' u → Q s (c || c') u)
  (hround : ∀ s r, round s = pure r → Q s r.1 r.2)
  (hsingle : ∀ p ∈ passes.singles, ∀ s changed ir,
    options.bisectLimit.any (decide <| · ≤ s.invocations.length) = false →
    p.run nodeCount s.ir = .ok (changed, ir) → Q s changed ⟨ir, s.invocations ++ [(p.1, changed)]⟩)

include htrans

include hround in
/-- Rounds of a fixed point keep what one round keeps, and report a change if one did. -/
theorem iterate_keeps (h : iterate round fuel changed s = pure r) :
    ∃ c, r.1 = (changed || c) ∧ Q s c r.2 := by
  induction fuel generalizing changed s with
  | zero => cases h
  | succ fuel ih =>
    obtain ⟨r₁, hrun, h⟩ := bind_eq_pure.1 h
    have hstep := hround _ _ hrun
    split at h
    · rename_i hc
      obtain ⟨c, hr, hrest⟩ := ih h
      exact ⟨r₁.1 || c, by simp_all, htrans _ _ _ _ _ hstep hrest⟩
    · cases h
      exact ⟨r₁.1, by simp_all, hstep⟩

include hround in
theorem runNested_keeps (h : runNested fuel fixedPoint checkers round s = pure r) :
    Q s r.1 r.2 := by
  rw [runNested] at h
  split at h
  · obtain ⟨c, hc, hQ⟩ := iterate_keeps htrans (fun s r h => hround s r (of_then h)) h
    rwa [hc, Bool.false_or]
  · exact hround _ _ (of_then h)

include hrefl hsingle in
/-- A run keeps what every run of a single pass below the limit keeps, with what it reports. -/
theorem runPasses_keeps (h : runPasses nodeCount options fuel passes checkers changed s = pure r) :
    ∃ c, r.1 = (changed || c) ∧ Q s c r.2 := by
  induction passes generalizing checkers changed s r with
  | nil =>
    cases h
    exact ⟨false, (Bool.or_false _).symm, hrefl s⟩
  | single p rest ih =>
    obtain ⟨hp, hrest⟩ := forall_mem_cons.1 hsingle
    rw [runPasses] at h
    split at h
    · exact ih hrest h
    · rename_i hskip
      obtain ⟨r₁, hrun, h⟩ := bind_eq_pure.1 h
      obtain ⟨c, hc, hQ⟩ := ih hrest (of_then h)
      have hstep := hp _ _ _ (by simp_all) (of_lift hrun)
      exact ⟨r₁.1 || c, by rw [hc, Bool.or_assoc], htrans _ _ _ _ _ hstep hQ⟩
  | compound shortName fixedPoint own passes rest ihPasses ih =>
    obtain ⟨hpasses, hrest⟩ := forall_mem_append.1 hsingle
    rw [runPasses] at h
    split at h
    · exact ih hrest h
    · obtain ⟨r₁, hrun, h⟩ := bind_eq_pure.1 h
      obtain ⟨c, hc, hQ⟩ := ih hrest (of_then h)
      have hstep := runNested_keeps htrans (fun s r h => ?_) hrun
      · exact ⟨r₁.1 || c, by rw [hc, Bool.or_assoc], htrans _ _ _ _ _ hstep hQ⟩
      · obtain ⟨c, hc, hQ⟩ := ihPasses hpasses h
        rwa [hc, Bool.false_or]

include hrefl hsingle in
theorem compound_keeps (h : runNested fuel fixedPoint checkers
      (runPasses nodeCount options fuel' passes checkers false) s = pure r) : Q s r.1 r.2 := by
  refine runNested_keeps htrans (fun s r h => ?_) h
  obtain ⟨c, hc, hQ⟩ := runPasses_keeps hrefl htrans hsingle h
  rwa [hc, Bool.false_or]

end Rule

/-! ### The report of a change -/

/-- A compound pass reports a change exactly if one of the passes that it invoked did, in any round
and however deep, and without one the IR has as many nodes as before. -/
theorem runNested_reports (h : runNested fuel fixedPoint checkers
      (runPasses nodeCount options fuel' passes checkers false) s = pure r) :
    ∃ invocations, r.2.invocations = s.invocations ++ invocations ∧
      r.1 = invocations.any (·.2) ∧ (r.1 = false → nodeCount r.2.ir = nodeCount s.ir) := by
  refine compound_keeps (Q := fun s c t => ∃ invocations : List (String × Bool),
      t.invocations = s.invocations ++ invocations ∧ c = invocations.any (·.2) ∧
        (c = false → nodeCount t.ir = nodeCount s.ir))
    (fun s => ⟨[], (append_nil _).symm, rfl, fun _ => rfl⟩) ?_ ?_ h
  · rintro s t u c c' ⟨l, hl, hc, hcount⟩ ⟨l', hl', hc', hcount'⟩
    refine ⟨l ++ l', by rw [hl', hl, append_assoc], by rw [any_append, hc, hc'], fun hnone => ?_⟩
    obtain ⟨hnone, hnone'⟩ := Bool.or_eq_false_iff.1 hnone
    exact (hcount' hnone').trans (hcount hnone)
  · intro p _ s changed ir _ hrun
    refine ⟨[(p.1, changed)], rfl, (Bool.or_false _).symm, fun hnone => ?_⟩
    obtain ⟨r, -, hrun⟩ := Result.bind_eq_ok.1 hrun
    split at hrun
    · rename_i hcheck
      cases hrun
      simp only [hnone, Bool.false_or, beq_iff_eq] at hcheck
      exact hcheck.symm
    · cases hrun

/-! ### The bisect limit -/

/-- One of the passes runs. -/
def Step (nodeCount : Ir → Nat) (S : List (Pass Ir)) (s t : PassState Ir) : Prop :=
  ∃ p ∈ S, ∃ changed, p.run nodeCount s.ir = .ok (changed, t.ir) ∧
    t.invocations = s.invocations ++ [(p.1, changed)]

/-- Any number of runs of the passes. -/
abbrev Steps (nodeCount : Ir → Nat) (S : List (Pass Ir)) := ReflTransGen (Step nodeCount S)

theorem steps_trans (s t u : PassState Ir) (_ _ : Bool) (h : Steps nodeCount S s t)
    (h' : Steps nodeCount S t u) : Steps nodeCount S s u := h.trans h'

theorem steps_runPasses (hS : passes.singles ⊆ S)
    (h : runPasses nodeCount options fuel passes checkers changed s = pure r) :
    Steps nodeCount S s r.2 := by
  obtain ⟨_, -, h⟩ := runPasses_keeps (Q := fun s _ t => Steps nodeCount S s t) (fun _ => .refl)
    steps_trans (fun _ hp _ _ _ _ hrun => .single ⟨_, hS hp, _, hrun, rfl⟩) h
  exact h

/-- From the limit on, nothing changes. -/
def Stops (n : Nat) (s t : PassState Ir) : Prop := n ≤ s.invocations.length → t = s

theorem stops_trans (s t u : PassState Ir) (_ _ : Bool) (h : Stops n s t) (h' : Stops n t u) :
    Stops n s u := by
  intro hn
  obtain rfl := h hn
  exact h' hn

theorem stops_runPasses
    (h : runPasses nodeCount ⟨skipPasses, some n⟩ fuel passes checkers changed s = pure r) :
    Stops n s r.2 := by
  obtain ⟨_, -, h⟩ := runPasses_keeps (Q := fun s _ t => Stops n s t) (fun _ _ => rfl) stops_trans
    (fun _ _ _ _ _ hlimit _ hn => by simp [hn] at hlimit) h
  exact h

/-- The run with the limit is where the run without it is, or it has stopped on the way. -/
def Behind (nodeCount : Ir → Nat) (S : List (Pass Ir)) (n : Nat) (r' r : Bool × PassState Ir) :
    Prop :=
  r'.2.invocations.length ≤ n ∧
    (r' = r ∨ n ≤ r'.2.invocations.length ∧ Steps nodeCount S r'.2 r.2)

section Behind

variable (hsteps : ∀ s r, round s = pure r → Steps nodeCount S s r.2)
  (hstops : ∀ s r, round' s = pure r → Stops n s r.2)
  (hbehind : ∀ s r' r, s.invocations.length ≤ n → round' s = pure r' → round s = pure r →
    Behind nodeCount S n r' r)
  (hn : s.invocations.length ≤ n)

include hsteps hstops hbehind hn

/-- The limited iteration is behind the one without limit. -/
theorem behind_iterate (h' : iterate round' fuel' changed s = pure r')
    (h : iterate round fuel changed s = pure r) : Behind nodeCount S n r' r := by
  induction fuel' generalizing fuel changed s with
  | zero => cases h'
  | succ fuel' ih =>
    cases fuel with
    | zero => cases h
    | succ fuel =>
      obtain ⟨r₁', hrun', h'⟩ := bind_eq_pure.1 h'
      obtain ⟨r₁, hrun, h⟩ := bind_eq_pure.1 h
      obtain ⟨hlen, rfl | ⟨hn₁, hlater⟩⟩ := hbehind _ _ _ hn hrun' hrun
      · split at h'
        · rename_i hc
          rw [if_pos hc] at h
          exact ih hlen h' h
        · rename_i hc
          rw [if_neg hc] at h
          cases h'
          cases h
          exact ⟨hlen, .inl rfl⟩
      · -- the run with the limit ends, the other one may go on
        have hend : r'.2 = r₁'.2 := by
          split at h'
          · obtain ⟨_, -, h⟩ := iterate_keeps (Q := fun s _ t => Stops n s t) stops_trans hstops h'
            exact h hn₁
          · cases h'
            rfl
        have hmore : Steps nodeCount S r₁.2 r.2 := by
          split at h
          · obtain ⟨_, -, h⟩ := iterate_keeps (Q := fun s _ t => Steps nodeCount S s t) steps_trans
              hsteps h
            exact h
          · cases h
            exact .refl
        rw [← hend] at hlen hn₁ hlater
        exact ⟨hlen, .inr ⟨hn₁, hlater.trans hmore⟩⟩

/-- The limited pipeline is behind the one without limit, at any depth. -/
theorem behind_runNested (h' : runNested fuel' fixedPoint checkers round' s = pure r')
    (h : runNested fuel fixedPoint checkers round s = pure r) : Behind nodeCount S n r' r := by
  rw [runNested] at h' h
  split at h'
  · rename_i hfixed
    rw [if_pos hfixed] at h
    exact behind_iterate (fun s r h => hsteps s r (of_then h)) (fun s r h => hstops s r (of_then h))
      (fun s r' r hn h' h => hbehind s r' r hn (of_then h') (of_then h)) hn h' h
  · rename_i hfixed
    rw [if_neg hfixed] at h
    exact hbehind _ _ _ hn (of_then h') (of_then h)

end Behind

/-- The limited list of passes is behind the one without limit. -/
theorem behind_runPasses (hS : passes.singles ⊆ S) (hn : s.invocations.length ≤ n)
    (h' : runPasses nodeCount ⟨skipPasses, some n⟩ fuel' passes checkers changed s = pure r')
    (h : runPasses nodeCount ⟨skipPasses, none⟩ fuel passes checkers changed s = pure r) :
    Behind nodeCount S n r' r := by
  induction passes generalizing checkers changed s r' r with
  | nil =>
    cases h'
    cases h
    exact ⟨hn, .inl rfl⟩
  | single p rest ih =>
    by_cases hstop : n ≤ s.invocations.length
    · rw [Behind, stops_runPasses h' hstop]
      exact ⟨hn, .inr ⟨hstop, steps_runPasses hS h⟩⟩
    · obtain ⟨-, hrest⟩ := cons_subset.1 hS
      rw [runPasses] at h' h
      simp only [Option.any_some, Option.any_none, hstop, decide_false] at h' h
      split at h'
      · rename_i hskip
        rw [if_pos hskip] at h
        exact ih hrest hn h' h
      · rename_i hskip
        rw [if_neg hskip] at h
        obtain ⟨r₁', hrun', h'⟩ := bind_eq_pure.1 h'
        obtain ⟨r₁, hrun, h⟩ := bind_eq_pure.1 h
        cases (of_lift hrun').symm.trans (of_lift hrun)
        refine ih hrest ?_ (of_then h') (of_then h)
        rw [length_append]
        exact not_le.1 hstop
  | compound shortName fixedPoint own passes rest ihPasses ih =>
    obtain ⟨hpasses, hrest⟩ := append_subset.1 hS
    rw [runPasses] at h' h
    split at h'
    · rename_i hskip
      rw [if_pos hskip] at h
      exact ih hrest hn h' h
    · rename_i hskip
      rw [if_neg hskip] at h
      obtain ⟨r₁', hrun', h'⟩ := bind_eq_pure.1 h'
      obtain ⟨r₁, hrun, h⟩ := bind_eq_pure.1 h
      obtain ⟨hlen, rfl | ⟨hn₁, hlater⟩⟩ := behind_runNested (fun _ _ => steps_runPasses hpasses)
        (fun _ _ => stops_runPasses) (fun _ _ _ hn => ihPasses hpasses hn) hn hrun' hrun
      · exact ih hrest hlen (of_then h') (of_then h)
      · rw [Behind, stops_runPasses (of_then h') hn₁]
        exact ⟨hlen, .inr ⟨hn₁, hlater.trans (steps_runPasses hrest (of_then h))⟩⟩

theorem invocations_isPrefix {s t : PassState Ir} (h : Steps nodeCount S s t) :
    s.invocations <+: t.invocations := by
  induction h with
  | refl => exact prefix_refl _
  | tail _ hstep ih =>
    obtain ⟨_, -, _, -, heq⟩ := hstep
    rw [heq]
    exact ih.trans (prefix_append _ _)

/-- Bisecting stops the run on its way: with a limit a compound pass invokes the first passes of
the run without, up to the limit, and ends in the IR they lead to. -/
theorem runNested_bisectLimit (hn : s.invocations.length ≤ n)
    (h' : runNested fuel' fixedPoint checkers
      (runPasses nodeCount ⟨skipPasses, some n⟩ fuel' passes checkers false) s = pure r')
    (h : runNested fuel fixedPoint checkers
      (runPasses nodeCount ⟨skipPasses, none⟩ fuel passes checkers false) s = pure r) :
    r'.2.invocations = r.2.invocations.take n ∧ Steps nodeCount passes.singles s r'.2 ∧
      Steps nodeCount passes.singles r'.2 r.2 := by
  have hS := Subset.refl passes.singles
  obtain ⟨hlen, hor⟩ := behind_runNested (fun _ _ => steps_runPasses hS)
    (fun _ _ => stops_runPasses) (fun _ _ _ hn => behind_runPasses hS hn) hn h' h
  have hbefore := runNested_keeps (Q := fun s _ t => Steps nodeCount passes.singles s t) steps_trans
    (fun _ _ => steps_runPasses hS) h'
  obtain rfl | ⟨hn', hlater⟩ := hor
  · exact ⟨(take_of_length_le hlen).symm, hbefore, .refl⟩
  · refine ⟨?_, hbefore, hlater⟩
    rw [prefix_iff_eq_take.1 (invocations_isPrefix hlater), le_antisymm hlen hn']

/-- Eight is halved to the fixed point. -/
def halving (bisectLimit : Option Nat) : Run (Bool × PassState Nat) :=
  runNested 5 true [] (runPasses id ⟨[], bisectLimit⟩ 5
    (.single ("halve", fun m => .ok (decide (0 < m), m / 2)) .nil) [] false) ⟨8, []⟩

theorem runNested_bisectLimit_halving : ∃ r' r, halving (some 2) = pure r' ∧
    halving none = pure r ∧ r'.2.invocations = r.2.invocations.take 2 ∧ r'.2.ir = 2 := by
  have h' : halving (some 2) = pure (true, ⟨2, [("halve", true), ("halve", true)]⟩) := rfl
  have h : halving none = pure (true, ⟨0, [("halve", true), ("halve", true), ("halve", true),
    ("halve", true), ("halve", false)]⟩) := rfl
  exact ⟨_, _, h', h, (runNested_bisectLimit (by decide) h' h).1, rfl⟩

theorem runNested_reports_halving : ∃ r l, halving none = pure r ∧ r.2.invocations = l ∧
    r.1 = l.any (·.2) := by
  have h : halving none = pure _ := rfl
  obtain ⟨l, hl, hr, -⟩ := runNested_reports h
  exact ⟨_, l, h, hl, hr⟩

/-! ### Pipelines of passes that keep the values -/

open Graph Interpreter

variable {env : Env} {args vals : List Value} {nodeCount : Graph → Nat}
  {checkers : List (InvariantChecker Graph)}

/-- Whatever has values in a graph has them in the other one. -/
def Keeps (env : Env) (args : List Value) (g g' : Graph) : Prop :=
  ∀ w : World env args, w.graph = g → ∃ w', w'.graph = g' ∧ w ≤ w'

theorem keeps_trans (s t u : PassState Graph) (_ _ : Bool) (h : Keeps env args s.ir t.ir)
    (h' : Keeps env args t.ir u.ir) : Keeps env args s.ir u.ir := by
  intro w hw
  obtain ⟨w₁, hw₁, hle⟩ := h w hw
  obtain ⟨w₂, hw₂, hle₂⟩ := h' w₁ hw₁
  exact ⟨w₂, hw₂, hle.trans hle₂⟩

/-- A pipeline of passes that keep the values keeps them, also to a fixed point and whatever it
skips: the graph passes the verifier, and every node of the function and the return value have the
values of the run. -/
theorem runNested_keepsValues {passes : Passes Graph} {f : Function}
    (hpasses : ∀ p ∈ passes.singles, ∀ g changed g', p.2 g = .ok (changed, g') →
      Keeps env args g g') (hrun : run env f args = .ok vals)
    {r : Bool × PassState Graph} (h : runNested fuel fixedPoint checkers
      (runPasses nodeCount options fuel passes checkers false) ⟨f.graph, []⟩ = pure r) :
    ∃ vals', r.2.ir.Verified f.params ∧ r.2.ir.Valuation env args vals' ∧ vals <+: vals' ∧
      ∀ v, vals[f.returnValue]? = some v → vals'[r.2.ir.returnValue]? = some v := by
  have hkeeps := compound_keeps (Q := fun s _ t => Keeps env args s.ir t.ir)
    (fun s w hw => ⟨w, hw, le_refl w⟩) keeps_trans (fun p hp s changed g _ hpass => ?_) h
  · obtain ⟨w, hw, hle⟩ := hkeeps (World.ofRun hrun) rfl
    have hverified := w.verified
    rw [hle.params] at hverified
    rw [← hw]
    exact ⟨w.vals, hverified, w.valuation, hle.vals, hle.returns⟩
  · obtain ⟨r, hinternal, hpass⟩ := Result.bind_eq_ok.1 hpass
    split at hpass
    · cases hpass
      exact hpasses p hp _ _ _ hinternal
    · cases hpass

/-- A run of `Reassociation`. -/
def reassociating : Passes Graph :=
  .single ("reassociation", Reassociation.runOnFunctionBase fun g =>
    (finRange g.nodes.length).reverse) .nil

theorem runNested_keepsValues_reassociating : ∃ r vals',
    runNested 2 true [] (runPasses (·.nodes.length) ⟨[], some 1⟩ 2 reassociating [] false)
        ⟨Reassociation.sumOfFour.graph, []⟩ = pure r ∧
      r.2.ir.Valuation (packageEnv []) (replicate 4 (.leaf (Bits.ofNat 4 15))) vals' ∧
      vals'[r.2.ir.returnValue]? = some (.leaf (Bits.ofNat 7 60)) := by
  have hkeeps : ∀ p ∈ reassociating.singles, ∀ g changed g', p.2 g = .ok (changed, g') →
      Keeps (packageEnv []) (replicate 4 (.leaf (Bits.ofNat 4 15))) g g' := by
    rintro p hp _ changed g hpass w rfl
    cases mem_singleton.1 hp
    obtain ⟨c, w', hrun, hle, -⟩ := Reassociation.runOnFunctionBase_spec _ w (le_refl w)
    cases hrun.symm.trans hpass
    exact ⟨w', rfl, hle⟩
  have hrun : ∃ vals, run (packageEnv []) Reassociation.sumOfFour
      (replicate 4 (.leaf (Bits.ofNat 4 15))) = .ok vals ∧
        vals[12]? = some (.leaf (Bits.ofNat 7 60)) := ⟨_, rfl, rfl⟩
  obtain ⟨vals, hrun, hsum⟩ := hrun
  have hreturns : (Option.bind (runNested 2 true []
      (runPasses (·.nodes.length) ⟨[], some 1⟩ 2 reassociating [] false)
        ⟨Reassociation.sumOfFour.graph, []⟩) Except.toOption).isSome := by decide +kernel
  obtain ⟨r, hr⟩ := Option.isSome_iff_exists.1 hreturns
  obtain ⟨_ | r, hpipeline, heq⟩ := Option.bind_eq_some_iff.1 hr
  · cases heq
  · obtain ⟨vals', -, hvaluation, -, hreturn⟩ := runNested_keepsValues hkeeps hrun hpipeline
    exact ⟨r, vals', hpipeline, hvaluation, hreturn _ hsum⟩

end Xls.PassBase

import Xls.ProcInterpreter.LocalSteps

/-!
# Xls.ProcInterpreter.Determinacy

The order in which the instances of a network are ticked. If all channels are streaming, have
one reader and one writer, and are only read by blocking receives, then the values that were
written to a channel in two runs are the same as far as both go (`runTicks_determinate`). If
every instance comes to an end in both runs, blocked or after the same number of activations,
the networks are the same. With a single-value channel it does matter when a value is read.
-/

namespace Xls.ProcInterpreter

open Result List
open ProcessNetwork (Event System State Run Steps Deliver Stuck eventsOf writes Comparable)

/-! ### Runs of ticks -/

/-- A tick that was made: the instance, how it ended, and the value that it sent. -/
structure TickRecord where
  inst : Nat
  state : TickExecutionState
  sent : Option (Nat × Value)

/-- The value that a tick sent, which is at the end of the queue. -/
def sentValue (state : TickExecutionState) (queues : List Queue) : Option (Nat × Value) :=
  match state with
  | .sentOnChannel ch => (queues[ch]?.bind fun q => q.queue.getLast?).map fun v => (ch, v)
  | _ => none

/-- The calls of `Tick` on some instances, one after the other, without an error. -/
def runTicks (e : Elaboration) : List Nat → Network → Result (List TickRecord × Network)
  | [], s => .ok ([], s)
  | i :: is, s => do
    let (r, s) ← tickInstance e i s
    let (records, s') ← runTicks e is s
    return (⟨i, r.executionState, sentValue r.executionState s.queues⟩ :: records, s')

/-- The values that were written to a channel. -/
def written (ch : Nat) (records : List TickRecord) : List Value :=
  records.filterMap fun r =>
    match r.sent with
    | some (ch', v) => if ch' = ch then some v else none
    | none => none

/-- The number of activations that an instance completed. -/
def activations (i : Nat) (records : List TickRecord) : Nat :=
  records.countP fun r => r.inst == i && r.state == .completed

/-- Ticking the instance does nothing: it is blocked at a receive. -/
def BlockedAt (e : Elaboration) (s : Network) (i : Nat) : Prop :=
  ∃ ch s', tickInstance e i s = .ok (⟨.blockedOnReceive ch, false⟩, s')

/-- The instance is at the start of a tick. -/
def AtStart (s : Network) (i : Nat) : Prop :=
  ∃ c, s.continuations[i]? = some c ∧ c.atStartOfTick = true

/-! ### Ticks as runs of the network -/

/-- The values in the queues. -/
def contents (qs : List Queue) (ch : Nat) : List Value := (qs[ch]?.map (·.queue)).getD []

variable {qs : List Queue}

theorem contents_set {id : Nat} {q : Queue} {values : List Value} (hq : qs[id]? = some q) :
    contents (qs.set id { q with queue := values }) = Function.update (contents qs) id values := by
  funext ch
  by_cases hch : ch = id
  · subst hch
    rw [Function.update_self, contents, getElem?_set_self (List.getElem?_eq_some_iff.1 hq).1]
    rfl
  · rw [Function.update_of_ne hch, contents, getElem?_set_ne (Ne.symm hch)]
    rfl

theorem contents_eq {id : Nat} {q : Queue} (hq : qs[id]? = some q) : contents qs id = q.queue := by
  rw [contents, hq]
  rfl

/-- The number of activations that some events complete. -/
def completes (as : List (Event Nat Value Bool)) : Nat :=
  as.countP fun
    | .internal done => done
    | _ => false

/-- The value of a send, if it is on the channel. -/
def sentTo (ch : Nat) : Option (Nat × Value) → List Value
  | some (ch', v) => if ch' = ch then [v] else []
  | none => []

section Ticks

variable {e : Elaboration} {hreader : SingleReader e} {hwriter : SingleWriter e}
  {inst : ProcInstance} {i : Nat}

/-- What a run of steps of one instance is, from one execution to another. -/
structure TickRun (e : Elaboration) (hreader : SingleReader e) (hwriter : SingleWriter e) (i : Nat)
    (x : Execution) (k : Nat) (r : TickResult) (x' : Execution) : Prop where
  generators : NoGenerators x'.queues
  length : x'.queues.length = x.queues.length
  run : ∀ locals : Nat → Option ProcContinuation, locals i = some (x.continuation.atIndex k) →
    ∃ as, Run (processes e hreader hwriter) ⟨locals, contents x.queues⟩ (as.map fun a => (i, a))
        ⟨Function.update locals i (some x'.continuation), contents x'.queues⟩ ∧
      completes as = (if r.executionState = .completed then 1 else 0) ∧
      ∀ ch, writes ch as = sentTo ch (sentValue r.executionState x'.queues)

theorem nextElements_atIndex (c : ProcContinuation) (k j : Nat) (nodes : List Nat) :
    nextElements (c.atIndex k) j nodes = nextElements c j nodes := by
  induction nodes generalizing j with
  | nil => rfl
  | cons node nodes ih =>
    rw [nextElements, nextElements, ih]
    rfl

theorem complete_atIndex (p : Proc) (c : ProcContinuation) (k : Nat) :
    complete p (c.atIndex k) = complete p c := by
  rw [complete, complete, nextElements_atIndex]
  rfl

/-- A step before a run, which neither writes nor ends an activation. -/
theorem TickRun.cons {x y x' : Execution} {k : Nat} {r : TickResult} {a : Event Nat Value Bool}
    (h : TickRun e hreader hwriter i y (k + 1) r x') (hinst : e.instances[i]? = some inst)
    (hstep : LocalStep e inst (x.continuation.atIndex k) a (y.continuation.atIndex (k + 1)))
    (hdeliver : Deliver (contents x.queues) a (contents y.queues)) (hcompletes : completes [a] = 0)
    (hwrites : ∀ ch, writes ch [a] = []) (hlength : y.queues.length = x.queues.length) :
    TickRun e hreader hwriter i x k r x' := by
  refine ⟨h.generators, h.length.trans hlength, fun locals hlocal => ?_⟩
  obtain ⟨as, hrun, hcount, hwritten⟩ :=
    h.run (Function.update locals i (some (y.continuation.atIndex (k + 1))))
      (Function.update_self ..)
  rw [Function.update_idem] at hrun
  have hinstance : InstanceStep e i (locals i) a (some (y.continuation.atIndex (k + 1))) :=
    ⟨inst, _, _, hinst, hlocal, rfl, hstep⟩
  have hfirst : Run (processes e hreader hwriter) ⟨locals, contents x.queues⟩ [(i, a)]
      ⟨Function.update locals i (some (y.continuation.atIndex (k + 1))), contents y.queues⟩ :=
    .step .start hinstance hdeliver
  refine ⟨a :: as, hfirst.trans hrun, ?_, fun ch => ?_⟩
  · rw [← singleton_append, completes, countP_append]
    exact (congrArg₂ (· + ·) hcompletes hcount).trans (Nat.zero_add _)
  · rw [← singleton_append, ProcessNetwork.writes_append, hwrites, hwritten, nil_append]

theorem getElem?_of_drop {α : Type} {xs : List α} {k : Nat} {x : α} {rest : List α}
    (h : xs.drop k = x :: rest) : xs[k]? = some x := by
  have hhead : (xs.drop k)[0]? = xs[k]? := getElem?_drop
  rw [h] at hhead
  exact hhead.symm

variable {ns : List ProcNode} {c : ProcContinuation} (hreader hwriter) in
/-- A tick from a node on is a run of steps of the instance. -/
theorem tickFrom_run (hstreaming : AllStreaming e) (hinst : e.instances[i]? = some inst)
    (hblocking : Blocking inst) {start k : Nat} (hns : inst.proc.nodes.drop k = ns)
    {x x' : Execution} {r : TickResult} (hgenerators : NoGenerators x.queues)
    (h : tickFrom e inst start ns k x = .ok (r, x')) : TickRun e hreader hwriter i x k r x' := by
  induction ns generalizing k x with
  | nil =>
    obtain ⟨c, hc, hevents⟩ := bind_eq_ok.1 h
    obtain ⟨_, -, hend⟩ := bind_eq_ok.1 hevents
    cases hend
    refine ⟨hgenerators, rfl, fun locals hlocal => ⟨[.internal true], ?_, rfl, fun ch => rfl⟩⟩
    have hnone : inst.proc.nodes[(x.continuation.atIndex k).nodeIndex]? = none :=
      getElem?_eq_none (drop_eq_nil_iff.mp hns)
    have hstep : InstanceStep e i (locals i) (.internal true) (some c) :=
      ⟨inst, _, c, hinst, hlocal, rfl, .complete hnone (by rw [complete_atIndex, hc])⟩
    exact .step .start hstep rfl
  | cons n ns ih =>
    have hn : inst.proc.nodes[k]? = some n := getElem?_of_drop hns
    have hrest : inst.proc.nodes.drop (k + 1) = ns := by
      rw [← drop_drop, hns]
      rfl
    obtain ⟨⟨result, y⟩, hnode, hmore⟩ := bind_eq_ok.1 h
    obtain ⟨action, haction, hacts⟩ := executeNode_acts hstreaming hgenerators
      (hblocking n (mem_of_getElem? hn)) hnode
    have haction' : nodeAction e inst n (x.continuation.atIndex k) = .ok (action.atIndex k) := by
      rw [nodeAction_atIndex, haction]
      rfl
    have hset : ∀ {id : Nat} {q : Queue} {values : List Value}, x.queues[id]? = some q →
        NoGenerators (x.queues.set id { q with queue := values }) := by
      intro id q values hq q' hq'
      rcases mem_or_eq_of_mem_set hq' with hold | rfl
      · exact hgenerators q' hold
      · exact hgenerators q (mem_of_getElem? hq)
    cases hacts with
    | internal c' =>
      have hstep : LocalStep e inst (x.continuation.atIndex k) (.internal false)
          ((c'.atIndex k).atIndex (k + 1)) := .internal hn haction'
      have hlater : TickRun e hreader hwriter i ⟨c', x.queues⟩ (k + 1) r x' :=
        ih hrest hgenerators hmore
      exact hlater.cons hinst hstep rfl rfl (fun _ => rfl) rfl
    | @read id next q v rest c' hq hqueue hnext =>
      have hvalue : (next v).map (·.atIndex k) = .ok (c'.atIndex k) := by
        rw [hnext]
        rfl
      have hstep : LocalStep e inst (x.continuation.atIndex k) (.read id v)
          ((c'.atIndex k).atIndex (k + 1)) := .read hn haction' hvalue
      have hlater : TickRun e hreader hwriter i
          ⟨c', x.queues.set id { q with queue := rest }⟩ (k + 1) r x' :=
        ih hrest (hset hq) hmore
      have hfront : contents x.queues id = v :: rest := by rw [contents_eq hq, hqueue]
      exact hlater.cons hinst hstep ⟨rest, hfront, contents_set hq⟩ rfl (fun _ => rfl)
        length_set
    | blocked hq hqueue =>
      obtain ⟨_, -, hend⟩ := bind_eq_ok.1 hmore
      cases hend
      refine ⟨hgenerators, rfl, fun locals hlocal => ⟨[], ?_, rfl, fun ch => rfl⟩⟩
      have hsame : Function.update locals i (some (x.continuation.atIndex k)) = locals := by
        rw [← hlocal, Function.update_eq_self]
      show Run _ _ [] ⟨Function.update locals i (some (x.continuation.atIndex k)), _⟩
      rw [hsame]
      exact .start
    | @write id v c' q hq =>
      obtain ⟨_, -, hend⟩ := bind_eq_ok.1 hmore
      cases hend
      refine ⟨hset hq, length_set, fun locals hlocal => ⟨[.write id v], ?_, rfl, ?_⟩⟩
      · have hstep : InstanceStep e i (locals i) (.write id v)
            (some ((c'.atIndex k).atIndex (k + 1))) :=
          ⟨inst, _, _, hinst, hlocal, rfl, .write hn haction'⟩
        have hdeliver : contents (x.queues.set id { q with queue := q.queue ++ [v] }) =
            Function.update (contents x.queues) id (contents x.queues id ++ [v]) := by
          rw [contents_set hq, contents_eq hq]
        exact .step .start hstep hdeliver
      · intro ch
        rw [sentValue, getElem?_set_self (List.getElem?_eq_some_iff.1 hq).1]
        simp [writes, sentTo]

/-- The network as a state of the processes. -/
def Network.state (s : Network) : State Nat (Option ProcContinuation) Nat Value :=
  ⟨fun i => s.continuations[i]?, contents s.queues⟩

/-- What a run of ticks is, from one network to another. -/
structure NetworkRun (e : Elaboration) (hreader : SingleReader e) (hwriter : SingleWriter e)
    (s : Network) (tr : List (Nat × Event Nat Value Bool)) (records : List TickRecord)
    (s' : Network) : Prop where
  run : Run (processes e hreader hwriter) s.state tr s'.state
  generators : NoGenerators s'.queues
  length : s'.queues.length = s.queues.length
  written : ∀ ch, written ch records = writes ch (tr.map Prod.snd)
  activations : ∀ j, activations j records = completes (eventsOf j tr)

/-- The events of one process among those of another. -/
theorem eventsOf_map (i j : Nat) (as : List (Event Nat Value Bool)) :
    eventsOf j (as.map fun a => (i, a)) = if i = j then as else [] := by
  induction as with
  | nil => split <;> rfl
  | cons a as ih =>
    rw [map_cons, ← singleton_append, ProcessNetwork.eventsOf_append, ih]
    by_cases hij : i = j
    · subst hij
      rw [if_pos rfl, if_pos rfl, ProcessNetwork.eventsOf_self]
      rfl
    · rw [if_neg hij, if_neg hij, ProcessNetwork.eventsOf_ne hij]
      rfl

/-- The record of a tick. -/
def recordOf (i : Nat) (r : TickResult) (s : Network) : TickRecord :=
  ⟨i, r.executionState, sentValue r.executionState s.queues⟩

variable {s : Network} (hreader hwriter) in
/-- One tick is a run of steps of its instance. -/
theorem tickInstance_run (hstreaming : AllStreaming e)
    (hblocking : ∀ inst ∈ e.instances, Blocking inst) {s' : Network} {r : TickResult}
    (hgenerators : NoGenerators s.queues) (h : tickInstance e i s = .ok (r, s')) :
    ∃ tr, NetworkRun e hreader hwriter s tr [recordOf i r s'] s' := by
  obtain ⟨inst, hinst, h⟩ := bind_eq_ok.1 h
  obtain ⟨c, hc, h⟩ := bind_eq_ok.1 h
  obtain ⟨⟨r', x⟩, htick, h⟩ := bind_eq_ok.1 h
  cases h
  have hc' := derefOption_eq_ok.1 hc
  have hinst' := derefOption_eq_ok.1 hinst
  have hrun := tickFrom_run hreader hwriter hstreaming hinst'
    (hblocking inst (mem_of_getElem? hinst')) rfl hgenerators htick
  obtain ⟨as, hsteps, hcompletes, hwrites⟩ := hrun.run s.state.locals hc'
  have hlocals : Function.update s.state.locals i (some x.continuation) =
      fun j => (s.continuations.set i x.continuation)[j]? := by
    funext j
    by_cases hj : j = i
    · subst hj
      rw [Function.update_self, getElem?_set_self (List.getElem?_eq_some_iff.1 hc').1]
    · rw [Function.update_of_ne hj, getElem?_set_ne (Ne.symm hj)]
      rfl
  rw [hlocals] at hsteps
  refine ⟨as.map fun a => (i, a), hsteps, hrun.generators, hrun.length, fun ch => ?_, fun j => ?_⟩
  · rw [map_map]
    show _ = writes ch (as.map id)
    rw [map_id, hwrites]
    show filterMap _ [_] = _
    rcases hsent : sentValue r.executionState x.queues with _ | ⟨ch', v⟩
    · simp [recordOf, hsent, sentTo]
    · by_cases hch : ch' = ch <;> simp [recordOf, hsent, sentTo, hch]
  · rw [eventsOf_map]
    show countP _ [_] = _
    by_cases hij : i = j
    · subst hij
      rw [if_pos rfl, hcompletes]
      by_cases hstate : r.executionState = .completed <;> simp [recordOf, hstate]
    · simp [recordOf, hij, completes]

variable (hreader hwriter) in
/-- A run of ticks is a run of the network. -/
theorem runTicks_run (hstreaming : AllStreaming e) (hblocking : ∀ inst ∈ e.instances, Blocking inst)
    {is : List Nat} {s' : Network} {records : List TickRecord} (hgenerators : NoGenerators s.queues)
    (h : runTicks e is s = .ok (records, s')) :
    ∃ tr, NetworkRun e hreader hwriter s tr records s' := by
  induction is generalizing s records with
  | nil =>
    cases h
    exact ⟨[], .start, hgenerators, rfl, fun _ => rfl, fun _ => rfl⟩
  | cons i is ih =>
    obtain ⟨⟨r, t⟩, htick, h⟩ := bind_eq_ok.1 h
    obtain ⟨⟨later, s''⟩, hticks, h⟩ := bind_eq_ok.1 h
    cases h
    obtain ⟨tr, hfirst⟩ := tickInstance_run hreader hwriter hstreaming
      hblocking hgenerators htick
    obtain ⟨tr', hlater⟩ := ih hfirst.generators hticks
    refine ⟨tr ++ tr', hfirst.run.trans hlater.run, hlater.generators,
      hlater.length.trans hfirst.length, fun ch => ?_, fun j => ?_⟩
    · rw [map_append, ProcessNetwork.writes_append, ← hfirst.written, ← hlater.written]
      exact filterMap_append (l := [recordOf i r t])
    · rw [ProcessNetwork.eventsOf_append, completes, countP_append]
      show _ = completes _ + completes _
      rw [← hfirst.activations, ← hlater.activations]
      exact @countP_append _ _ [recordOf i r t] later

/-! ### The ends of runs -/

/-- A tick that went past a node has made progress. -/
theorem progressMade_of_lt {inst : ProcInstance} {start j : Nat} {x x' : Execution} {ch : Nat}
    {progress : Bool} (hlt : start < j)
    (h : tickFrom e inst start ns j x = .ok (⟨.blockedOnReceive ch, progress⟩, x')) :
    progress = true := by
  induction ns generalizing j x with
  | nil =>
    obtain ⟨_, -, hevents⟩ := bind_eq_ok.1 h
    obtain ⟨_, -, hend⟩ := bind_eq_ok.1 hevents
    cases hend
  | cons n ns ih =>
    obtain ⟨⟨result, y⟩, -, hmore⟩ := bind_eq_ok.1 h
    cases result with
    | sent id =>
      obtain ⟨_, -, hend⟩ := bind_eq_ok.1 hmore
      cases hend
    | blocked id =>
      obtain ⟨_, -, hend⟩ := bind_eq_ok.1 hmore
      cases hend
      exact bne_iff_ne.2 (Nat.ne_of_gt hlt)
    | done => exact ih (Nat.lt_succ_of_lt hlt) hmore

/-- A blocked instance can only read, and the queue is empty. -/
theorem stuck_of_blockedAt (hstreaming : AllStreaming e)
    (hblocking : ∀ inst ∈ e.instances, Blocking inst) (hgenerators : NoGenerators s.queues)
    (h : BlockedAt e s i) : Stuck (processes e hreader hwriter) s.state i := by
  obtain ⟨ch, s', h⟩ := h
  obtain ⟨inst, hinst, h⟩ := bind_eq_ok.1 h
  obtain ⟨c, hc, h⟩ := bind_eq_ok.1 h
  obtain ⟨⟨r, x⟩, htick, h⟩ := bind_eq_ok.1 h
  cases h
  have hc' := derefOption_eq_ok.1 hc
  have hinst' := derefOption_eq_ok.1 hinst
  unfold tick at htick
  dsimp only at htick
  cases hns : inst.proc.nodes.drop c.nodeIndex with
  | nil =>
    rw [hns] at htick
    obtain ⟨_, -, hevents⟩ := bind_eq_ok.1 htick
    obtain ⟨_, -, hend⟩ := bind_eq_ok.1 hevents
    cases hend
  | cons n ns =>
    rw [hns] at htick
    have hn : inst.proc.nodes[c.nodeIndex]? = some n := getElem?_of_drop hns
    obtain ⟨⟨result, y⟩, hnode, hmore⟩ := bind_eq_ok.1 htick
    obtain ⟨action, haction, hacts⟩ := executeNode_acts hstreaming hgenerators
      (hblocking inst (mem_of_getElem? hinst') n (mem_of_getElem? hn)) hnode
    cases hacts with
    | write _ =>
      obtain ⟨_, -, hend⟩ := bind_eq_ok.1 hmore
      cases hend
    | @blocked id next q hq hqueue =>
      refine ⟨id, (contents_eq hq).trans hqueue, ?_⟩
      rintro a t ⟨inst', d, d', hinst'', hd, -, hstep⟩
      cases hinst'.symm.trans hinst''
      cases hc'.symm.trans hd
      cases hstep with
      | complete hnone _ => cases hn.symm.trans hnone
      | internal hn' haction' =>
        cases hn.symm.trans hn'
        cases haction.symm.trans haction'
      | @read _ _ _ v _ hn' haction' _ =>
        cases hn.symm.trans hn'
        cases haction.symm.trans haction'
        exact ⟨v, rfl⟩
      | write hn' haction' =>
        cases hn.symm.trans hn'
        cases haction.symm.trans haction'
    | _ => cases progressMade_of_lt (Nat.lt_succ_self _) hmore

theorem LocalStep.nodeIndex {inst : ProcInstance} {c' : ProcContinuation} {a : Event Nat Value Bool}
    (h : LocalStep e inst c a c') (ha : completes [a] = 0) : c'.nodeIndex = c.nodeIndex + 1 := by
  cases h with
  | complete _ _ => cases ha
  | _ => rfl

/-- Steps that complete no activation execute one node each. -/
theorem nodeIndex_of_steps {t : Option ProcContinuation} {as : List (Event Nat Value Bool)}
    (h : Steps (processes e hreader hwriter) i (some c) as t) (has : completes as = 0) :
    ∃ c', t = some c' ∧ c'.nodeIndex = c.nodeIndex + as.length := by
  induction as generalizing c with
  | nil => exact ⟨c, h, rfl⟩
  | cons a as ih =>
    obtain ⟨_, ⟨inst, d, d', hinst, hd, rfl, hstep⟩, h⟩ := h
    cases hd
    rw [completes, ← singleton_append, countP_append] at has
    obtain ⟨hfirst, hlater⟩ := Nat.add_eq_zero_iff.mp has
    obtain ⟨c', rfl, hindex⟩ := ih h hlater
    refine ⟨c', rfl, ?_⟩
    rw [hindex, hstep.nodeIndex hfirst, length_cons, Nat.add_assoc, Nat.add_comm 1]

/-- An instance that starts a tick after the same number of activations did the same. -/
theorem eventsOf_eq_of_atStart {s₁ s₂ : Network} {tr₁ tr₂ : List (Nat × Event Nat Value Bool)}
    {records₁ records₂ : List TickRecord} (h₁ : NetworkRun e hreader hwriter s tr₁ records₁ s₁)
    (h₂ : NetworkRun e hreader hwriter s tr₂ records₂ s₂) (hstart₁ : AtStart s₁ i)
    (hstart₂ : AtStart s₂ i) (hcount : activations i records₁ = activations i records₂)
    (hbelow : eventsOf i tr₁ <+: eventsOf i tr₂) : eventsOf i tr₁ = eventsOf i tr₂ := by
  obtain ⟨rest, hrest⟩ := hbelow
  obtain ⟨c₁, hc₁, hindex₁⟩ := hstart₁
  obtain ⟨c₂, hc₂, hindex₂⟩ := hstart₂
  have hsteps := h₂.run.steps i
  rw [← hrest, ProcessNetwork.steps_append] at hsteps
  obtain ⟨u, hu, hsteps⟩ := hsteps
  cases (h₁.run.steps i).unique hu
  rw [h₁.activations, h₂.activations, ← hrest, completes, completes, countP_append] at hcount
  have hnone : completes rest = 0 := Nat.left_eq_add.mp hcount
  have hlocal : s₁.state.locals i = some c₁ := hc₁
  rw [hlocal] at hsteps
  obtain ⟨c', hc', hindex⟩ := nodeIndex_of_steps hsteps hnone
  cases hc₂.symm.trans hc'
  rw [beq_iff_eq.1 hindex₁, beq_iff_eq.1 hindex₂, Nat.zero_add] at hindex
  rw [← hrest, length_eq_zero_iff.mp hindex.symm, append_nil]

end Ticks

/-! ### Any two orders -/

/-- The contents determine the queues. -/
theorem contents_injective {qs' : List Queue} (hlength : qs.length = qs'.length)
    (h : contents qs = contents qs') : qs.map (·.queue) = qs'.map (·.queue) := by
  refine ext_getElem? fun ch => ?_
  have hch := congrFun h ch
  rw [getElem?_map, getElem?_map]
  unfold contents at hch
  rcases hq : qs[ch]? with _ | q
  · rw [getElem?_eq_none (hlength ▸ List.getElem?_eq_none_iff.1 hq)]
  · obtain ⟨q', hq'⟩ : ∃ q', qs'[ch]? = some q' :=
      ⟨_, getElem?_eq_getElem (hlength ▸ (List.getElem?_eq_some_iff.1 hq).1)⟩
    rw [hq, hq'] at hch
    rw [hq']
    exact congrArg some hch

/-- The order of the ticks does not decide what is written to a channel, and not where the
network comes to an end. -/
theorem runTicks_determinate {e : Elaboration} (hstreaming : AllStreaming e)
    (hreader : SingleReader e) (hwriter : SingleWriter e)
    (hblocking : ∀ inst ∈ e.instances, Blocking inst) {s s₁ s₂ : Network}
    (hgenerators : NoGenerators s.queues) {is₁ is₂ : List Nat} {records₁ records₂ : List TickRecord}
    (h₁ : runTicks e is₁ s = .ok (records₁, s₁)) (h₂ : runTicks e is₂ s = .ok (records₂, s₂)) :
    (∀ ch, Comparable (written ch records₁) (written ch records₂)) ∧
      ((∀ i < e.instances.length, (BlockedAt e s₁ i ∧ BlockedAt e s₂ i) ∨
          (AtStart s₁ i ∧ AtStart s₂ i ∧ activations i records₁ = activations i records₂)) →
        s₁.continuations = s₂.continuations ∧
          s₁.queues.map (·.queue) = s₂.queues.map (·.queue)) := by
  obtain ⟨tr₁, hrun₁⟩ := runTicks_run hreader hwriter hstreaming
    hblocking hgenerators h₁
  obtain ⟨tr₂, hrun₂⟩ := runTicks_run hreader hwriter hstreaming
    hblocking hgenerators h₂
  have hcomparable := hrun₁.run.comparable hrun₂.run
  refine ⟨fun ch => ?_, fun hends => ?_⟩
  · rw [hrun₁.written, hrun₂.written]
    exact hrun₁.run.writes_comparable hrun₂.run hcomparable ch
  · have hevents : ∀ i, (Stuck (processes e hreader hwriter) s₁.state i ∧
        Stuck (processes e hreader hwriter) s₂.state i) ∨ eventsOf i tr₁ = eventsOf i tr₂ := by
      intro i
      rcases Nat.lt_or_ge i e.instances.length with hi | hi
      · rcases hends i hi with ⟨hblocked₁, hblocked₂⟩ | ⟨hstart₁, hstart₂, hcount⟩
        · exact .inl ⟨stuck_of_blockedAt hstreaming hblocking hrun₁.generators hblocked₁,
            stuck_of_blockedAt hstreaming hblocking hrun₂.generators hblocked₂⟩
        · refine .inr ?_
          rcases hcomparable i with hbelow | hbelow
          · exact eventsOf_eq_of_atStart hrun₁ hrun₂ hstart₁ hstart₂ hcount hbelow
          · exact (eventsOf_eq_of_atStart hrun₂ hrun₁ hstart₂ hstart₁ hcount.symm hbelow).symm
      · have hnone : ∀ t a t', ¬ (processes e hreader hwriter).step i t a t' := by
          rintro t a t' ⟨inst, _, _, hinst, -⟩
          rw [getElem?_eq_none hi] at hinst
          cases hinst
        exact .inr ((hrun₁.run.eventsOf_nil hnone).trans (hrun₂.run.eventsOf_nil hnone).symm)
    obtain ⟨hstate, -⟩ := hrun₁.run.eq_of_stuck hrun₂.run hevents
    have hlocals := congrArg State.locals hstate
    have hqueues := congrArg State.queues hstate
    exact ⟨ext_getElem? (congrFun hlocals),
      contents_injective (hrun₁.length.trans hrun₂.length.symm) hqueues⟩

/-! ### Small networks -/

/-- An activation that sends two values on the first channel. -/
def exampleSource : ProcInstance where
  proc := {
    nodes := [⟨.ir (.literal Value.token), [], .token⟩,
      ⟨.ir (.literal (.leaf (Bits.ofNat 8 5))), [], .bits 8⟩,
      ⟨.ir (.literal (.leaf (Bits.ofNat 8 6))), [], .bits 8⟩,
      ⟨.send 0 false, [0, 1], .token⟩, ⟨.send 0 false, [3, 2], .token⟩]
    initValues := []
    nextState := [] }
  channelInstance name := if name = 0 then some 0 else none

/-- An activation that receives a value on the first channel and sends it on the second. -/
def exampleForwarder : ProcInstance where
  proc := {
    nodes := [⟨.ir (.literal Value.token), [], .token⟩,
      ⟨.receive 0 false true, [0], .tuple [.token, .bits 8]⟩,
      ⟨.ir (.tupleIndex 0), [1], .token⟩, ⟨.ir (.tupleIndex 1), [1], .bits 8⟩,
      ⟨.send 1 false, [2, 3], .token⟩]
    initValues := []
    nextState := [] }
  channelInstance name := if name < 2 then some name else none

/-- The two instances, with a first channel of the kind. -/
def exampleChain (kind : ChannelKind) : Elaboration where
  env := ⟨fun _ => [], fun _ _ => .error .check⟩
  callEvents _ _ := ⟨[], []⟩
  channels := [kind, .streaming].map fun kind =>
    ⟨"c", kind, "bits[8]", fun v => decide (v.Conforms (.bits 8)), fun _ => ""⟩
  instances := [exampleSource, exampleForwarder]

/-- Both instances at their start and the queues. -/
def exampleNetwork (queues : List Queue) : Network :=
  ⟨[newContinuation exampleSource.proc, newContinuation exampleForwarder.proc], queues⟩

theorem singleReader_exampleChain (kind : ChannelKind) : SingleReader (exampleChain kind) := by
  have hreader : ∀ i ch, Receives (exampleChain kind) i ch → i = 1 := by
    rintro (_ | _ | i) ch ⟨inst, hinst, hch⟩
    · cases hinst
      exact absurd hch not_mem_nil
    · rfl
    · cases hinst
  intro i j ch hi hj
  rw [hreader i ch hi, hreader j ch hj]

/-- In the chain of the example, each channel is written by one proc. -/
theorem singleWriter_exampleChain (kind : ChannelKind) : SingleWriter (exampleChain kind) := by
  have hwriter : ∀ i ch, Sends (exampleChain kind) i ch → i = ch := by
    rintro (_ | _ | i) ch ⟨inst, hinst, hch⟩
    · cases hinst
      have hzero : ch ∈ [0, 0] := hch
      simpa [eq_comm] using hzero
    · cases hinst
      have hone : ch ∈ [1] := hch
      simpa [eq_comm] using hone
    · cases hinst
  intro i j ch hi hj
  rw [hwriter i ch hi, hwriter j ch hj]

/-- The procs of the example receive blocking only. -/
theorem blocking_exampleChain (kind : ChannelKind) :
    ∀ inst ∈ (exampleChain kind).instances, Blocking inst := by
  have hsource : Blocking exampleSource := by
    intro n hn name hasPredicate isBlocking hop
    simp only [exampleSource, mem_cons, not_mem_nil, or_false] at hn
    rcases hn with rfl | rfl | rfl | rfl | rfl <;> cases hop
  have hforwarder : Blocking exampleForwarder := by
    intro n hn name hasPredicate isBlocking hop
    simp only [exampleForwarder, mem_cons, not_mem_nil, or_false] at hn
    rcases hn with rfl | rfl | rfl | rfl | rfl <;> cases hop
    rfl
  intro inst hinst
  rcases mem_cons.1 hinst with rfl | hinst
  · exact hsource
  · rw [mem_singleton.1 hinst]
    exact hforwarder

/-- With a single-value channel, the value that goes on depends on when it is read. With
streaming channels, an activation that is not complete can have sent a value. -/
theorem not_determinate_exampleChain :
    (SingleReader (exampleChain .singleValue) ∧ SingleWriter (exampleChain .singleValue) ∧
      (∀ inst ∈ (exampleChain .singleValue).instances, Blocking inst) ∧ ∃ records₁ s₁ records₂ s₂,
        runTicks (exampleChain .singleValue) [0, 1] (exampleNetwork [.new [], .new []]) =
          .ok (records₁, s₁) ∧
        runTicks (exampleChain .singleValue) [0, 0, 1] (exampleNetwork [.new [], .new []]) =
          .ok (records₂, s₂) ∧ ¬ Comparable (written 1 records₁) (written 1 records₂)) ∧
    SingleReader (exampleChain .streaming) ∧ SingleWriter (exampleChain .streaming) ∧
      (∀ inst ∈ (exampleChain .streaming).instances, Blocking inst) ∧ ∃ records₁ s₁ records₂ s₂,
        runTicks (exampleChain .streaming) [] (exampleNetwork [.new [], .new []]) =
          .ok (records₁, s₁) ∧
        runTicks (exampleChain .streaming) [0] (exampleNetwork [.new [], .new []]) =
          .ok (records₂, s₂) ∧ (∀ i, activations i records₁ = activations i records₂) ∧
        s₁.queues.map (·.queue) ≠ s₂.queues.map (·.queue) := by
  refine ⟨⟨singleReader_exampleChain _, singleWriter_exampleChain _, blocking_exampleChain _,
      _, _, _, _, rfl, rfl, ?_⟩, singleReader_exampleChain _, singleWriter_exampleChain _,
    blocking_exampleChain _, _, _, _, _, rfl, rfl, ?_, ?_⟩
  · show ¬ Comparable [(.leaf (Bits.ofNat 8 5) : Value)] [(.leaf (Bits.ofNat 8 6) : Value)]
    rintro (h | h) <;> exact absurd (cons_prefix_cons.1 h).1 (by decide)
  · intro i
    show 0 = countP _ [_]
    cases i <;> rfl
  · show ¬ [([] : List Value), []] = [[(.leaf (Bits.ofNat 8 5) : Value)], []]
    exact nofun

/-- The source can send both values before the first is forwarded. -/
theorem runTicks_determinate_exampleChain :
    ∃ records₁ s₁ records₂ s₂, runTicks (exampleChain .streaming) [0, 0, 0, 1, 1, 1, 1, 1]
          (exampleNetwork [.new [], .new []]) = .ok (records₁, s₁) ∧
      runTicks (exampleChain .streaming) [1, 0, 1, 1, 0, 1, 1, 0, 1]
          (exampleNetwork [.new [], .new []]) = .ok (records₂, s₂) ∧
      (∀ ch, Comparable (written ch records₁) (written ch records₂)) ∧
      s₁.continuations = s₂.continuations ∧ s₁.queues.map (·.queue) = s₂.queues.map (·.queue) := by
  refine ⟨_, _, _, _, rfl, rfl, ?_⟩
  have hdeterminate := @runTicks_determinate (exampleChain .streaming)
    (by
      intro channel hchannel
      obtain ⟨kind, hkind, rfl⟩ := mem_map.1 hchannel
      simpa using hkind)
    (singleReader_exampleChain _) (singleWriter_exampleChain _) (blocking_exampleChain _)
    (exampleNetwork [.new [], .new []]) _ _ (by
      intro q hq
      simp only [exampleNetwork, mem_cons, not_mem_nil, or_self, or_false] at hq
      rw [hq]
      rfl)
    [0, 0, 0, 1, 1, 1, 1, 1] [1, 0, 1, 1, 0, 1, 1, 0, 1] _ _ rfl rfl
  refine ⟨hdeterminate.1, hdeterminate.2 ?_⟩
  rintro (_ | _ | i) hi
  · exact .inr ⟨⟨_, rfl, rfl⟩, ⟨_, rfl, rfl⟩, rfl⟩
  · exact .inl ⟨⟨0, _, rfl⟩, ⟨0, _, rfl⟩⟩
  · exact absurd hi (by simp [exampleChain])

end Xls.ProcInterpreter

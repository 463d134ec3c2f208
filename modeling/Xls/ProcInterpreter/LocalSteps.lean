import Xls.Lib.ProcessNetwork
import Xls.ProcInterpreter.Queues

/-!
# Xls.ProcInterpreter.LocalSteps

A proc as a process of a network. The next node of an instance, or the end of its
activation, decides what the instance does next: something of its own, a read or a write.
A tick is a run of such steps of one instance, so that a continuation that is suspended
within a tick is a state like any other.
-/

namespace Xls.ProcInterpreter

open Result List
open ProcessNetwork (Event System State Run Steps Deliver)

variable {e : Elaboration} {inst : ProcInstance} {n : ProcNode}

/-! ### What a node does -/

/-- What executing a node does: something of its own, or a read or a write of a channel
instance. -/
inductive Action
  | internal (c : ProcContinuation)
  | read (channel : Nat) (next : Value → Result ProcContinuation)
  | write (channel : Nat) (v : Value) (c : ProcContinuation)

/-- The channel instance of a name. -/
def channelOf (inst : ProcInstance) (name : Nat) : Result Nat :=
  match inst.channelInstance name with
  | none => .error (.status "No channel with this name")
  | some id => .ok id

/-- The action of a blocking receive, a send or another node. -/
def nodeAction (e : Elaboration) (inst : ProcInstance) (n : ProcNode) (c : ProcContinuation) :
    Result Action :=
  match n.op, n.operands with
  | .receive name hasPredicate isBlocking, _ :: rest => do
    let id ← channelOf inst name
    let active ← predicateHolds c (if hasPredicate then rest[0]? else none)
    if active then return .read id fun v => setValueResult n c (receivedValue isBlocking v)
    else do
      let c ← setValueResult n c (Value.zeroOfType n.type)
      return .internal c
  | .send name hasPredicate, _ :: data :: rest => do
    let id ← channelOf inst name
    let active ← predicateHolds c (if hasPredicate then rest[0]? else none)
    if active then do
      let v ← resolve c data
      let c ← setValueResult n c Value.token
      return .write id v c
    else do
      let c ← setValueResult n c Value.token
      return .internal c
  | .receive .., _ | .send .., _ => .error .check
  | _, _ => do
    let c ← handleLocal e n c
    return .internal c

/-! ### The node index -/

/-- The continuation at another node. -/
def ProcContinuation.atIndex (c : ProcContinuation) (k : Nat) : ProcContinuation :=
  { c with nodeIndex := k }

@[simp] theorem resolve_atIndex (c : ProcContinuation) (k id : Nat) :
    resolve (c.atIndex k) id = resolve c id := rfl

theorem resolveAll_atIndex (c : ProcContinuation) (k : Nat) (ids : List Nat) :
    resolveAll (c.atIndex k) ids = resolveAll c ids := by
  induction ids with
  | nil => rfl
  | cons id ids ih => rw [resolveAll, resolveAll, ih, resolve_atIndex]

theorem predicateHolds_atIndex (c : ProcContinuation) (k : Nat) (predicate : Option Nat) :
    predicateHolds (c.atIndex k) predicate = predicateHolds c predicate := by
  cases predicate <;> rfl

theorem setValueResult_atIndex (n : ProcNode) (c : ProcContinuation) (k : Nat) (v : Value) :
    setValueResult n (c.atIndex k) v = (setValueResult n c v).map (·.atIndex k) := by
  unfold setValueResult
  split <;> rfl

/-- The action at another node index. -/
def Action.atIndex (k : Nat) : Action → Action
  | .internal c => .internal (c.atIndex k)
  | .read channel next => .read channel fun v => (next v).map (·.atIndex k)
  | .write channel v c => .write channel v (c.atIndex k)

theorem map_bind {α β γ : Type} (x : Result α) (f : α → Result β) (g : β → γ) :
    (x >>= f).map g = x >>= fun a => (f a).map g := by
  cases x <;> rfl

/-- A node is handled alike wherever the continuation stands. -/
theorem handleLocal_atIndex (c : ProcContinuation) (k : Nat) :
    handleLocal e n (c.atIndex k) = (handleLocal e n c).map (·.atIndex k) := by
  obtain ⟨op, operands, type⟩ := n
  unfold handleLocal
  dsimp only
  split
  · rw [resolveAll_atIndex, map_bind]
    congr 1
    funext vs
    rw [map_bind]
    congr 1
    funext v
    rw [map_bind]
    congr 1
    funext calls
    exact setValueResult_atIndex _ { c with events := _ } k v
  · rw [map_bind]
    congr 1
    funext holds
    exact setValueResult_atIndex _ { c with events := _ } k _
  · rw [map_bind]
    congr 1
    funext holds
    split
    · rw [resolveAll_atIndex, map_bind]
      congr 1
      funext vs
      rw [map_bind]
      congr 1
      funext message
      exact setValueResult_atIndex _ { c with events := _ } k _
    · exact setValueResult_atIndex _ c k _
  · rw [predicateHolds_atIndex, map_bind]
    congr 1
  · rfl

/-- What a node does does not depend on the node index. -/
theorem nodeAction_atIndex (c : ProcContinuation) (k : Nat) :
    nodeAction e inst n (c.atIndex k) = (nodeAction e inst n c).map (Action.atIndex k) := by
  obtain ⟨op, operands, type⟩ := n
  unfold nodeAction
  dsimp only
  split
  · rw [predicateHolds_atIndex, map_bind]
    congr 1
    funext id
    rw [map_bind]
    congr 1
    funext active
    split
    · show Except.ok _ = Except.ok _
      congr 2
      funext v
      exact setValueResult_atIndex _ c k _
    · rw [setValueResult_atIndex, map_bind]
      cases setValueResult _ c _ <;> rfl
  · rw [predicateHolds_atIndex, map_bind]
    congr 1
    funext id
    rw [map_bind]
    congr 1
    funext active
    split
    · rw [resolve_atIndex, map_bind]
      congr 1
      funext v
      rw [setValueResult_atIndex, map_bind]
      cases setValueResult _ c _ <;> rfl
    · rw [setValueResult_atIndex, map_bind]
      cases setValueResult _ c _ <;> rfl
  · rfl
  · rfl
  · rw [handleLocal_atIndex, map_bind]
    cases handleLocal e _ c <;> rfl

/-- A read with an empty queue blocks, one with a value takes it, and a write goes to the end. -/
inductive Acts (qs : List Queue) (c : ProcContinuation) : Action → NodeResult → Execution → Prop
  | internal (c' : ProcContinuation) : Acts qs c (.internal c') .done ⟨c', qs⟩
  | read {id : Nat} {next : Value → Result ProcContinuation} {q : Queue} {v : Value}
      {rest : List Value} {c' : ProcContinuation} (hq : qs[id]? = some q)
      (hqueue : q.queue = v :: rest) (hnext : next v = .ok c') :
      Acts qs c (.read id next) .done ⟨c', qs.set id { q with queue := rest }⟩
  | blocked {id : Nat} {next : Value → Result ProcContinuation} {q : Queue}
      (hq : qs[id]? = some q) (hqueue : q.queue = []) :
      Acts qs c (.read id next) (.blocked id) ⟨c, qs⟩
  | write {id : Nat} {v : Value} {c' : ProcContinuation} {q : Queue} (hq : qs[id]? = some q) :
      Acts qs c (.write id v c') (.sent id) ⟨c', qs.set id { q with queue := q.queue ++ [v] }⟩

/-- Every channel is streaming. -/
def AllStreaming (e : Elaboration) : Prop := ∀ channel ∈ e.channels, channel.kind = .streaming

/-- No queue has a generator. -/
def NoGenerators (qs : List Queue) : Prop := ∀ q ∈ qs, q.generator = none

/-- All receives of an instance are blocking. -/
def Blocking (inst : ProcInstance) : Prop :=
  ∀ n ∈ inst.proc.nodes, ∀ name hasPredicate isBlocking,
    n.op = .receive name hasPredicate isBlocking → isBlocking = true

variable {q : Queue} {channel : Channel Value} {v : Value} {qs : List Queue}
  {c' : Option ProcContinuation}

/-- A read takes the first value, or nothing from an empty queue. -/
theorem read_streaming {q' : Queue} {o : Option Value} (hgen : q.generator = none)
    (h : q.read (ChannelQueue.deque .streaming) = .ok (o, q')) :
    (q.queue = [] ∧ o = none ∧ q' = q) ∨
      ∃ v rest, q.queue = v :: rest ∧ o = some v ∧ q' = { q with queue := rest } := by
  obtain ⟨queue, generator, generated⟩ := q
  dsimp only at hgen
  subst hgen
  cases queue with
  | nil =>
    cases h
    exact .inl ⟨rfl, rfl, rfl⟩
  | cons v rest =>
    cases h
    exact .inr ⟨v, rest, rfl, rfl, rfl⟩

theorem write_streaming {q' : Queue}
    (h : q.write channel (ChannelQueue.deque .streaming) v = .ok (none, q')) :
    q' = { q with queue := q.queue ++ [v] } := by
  unfold ChannelQueue.write at h
  split at h
  · cases h
  · split at h
    · cases h
    · cases h
      rfl

/-- The queue of a channel, if all channels are streaming. -/
theorem getChannelQueue_eq {name id : Nat} (hstreaming : AllStreaming e)
    (h : getChannelQueue e inst qs name = .ok (id, channel, q)) :
    channelOf inst name = .ok id ∧ channel.kind = .streaming ∧ qs[id]? = some q := by
  obtain ⟨hchannel, hq⟩ := getChannelQueue_spec h
  refine ⟨?_, hstreaming channel (mem_of_getElem? hchannel), hq⟩
  unfold getChannelQueue at h
  unfold channelOf
  cases hname : inst.channelInstance name with
  | none =>
    rw [hname] at h
    cases h
  | some id' =>
    rw [hname] at h
    obtain ⟨_, -, hqueue⟩ := bind_eq_ok.1 h
    obtain ⟨_, -, hend⟩ := bind_eq_ok.1 hqueue
    cases hend
    rfl

variable {c : ProcContinuation}

/-- Executing a node does what its action says. -/
theorem executeNode_acts (hstreaming : AllStreaming e) (hgenerators : NoGenerators qs)
    (hblocking : ∀ name hasPredicate isBlocking,
      n.op = .receive name hasPredicate isBlocking → isBlocking = true) {r : NodeResult}
    {x' : Execution} (h : executeNode e inst n ⟨c, qs⟩ = .ok (r, x')) :
    ∃ action, nodeAction e inst n c = .ok action ∧ Acts qs c action r x' := by
  have hlocal : (handleLocal e n c >>= fun c' => .ok (NodeResult.done, ⟨c', qs⟩)) = .ok (r, x') →
      ∃ action, (handleLocal e n c >>= fun c' => .ok (Action.internal c')) = .ok action ∧
        Acts qs c action r x' := by
    intro h
    obtain ⟨c', hc', h⟩ := bind_eq_ok.1 h
    cases h
    rw [hc']
    exact ⟨_, rfl, .internal c'⟩
  obtain ⟨op, operands, type⟩ := n
  cases op with
  | receive name hasPredicate isBlocking =>
    obtain rfl := hblocking name hasPredicate isBlocking rfl
    match operands, h with
    | [], h => cases h
    | _ :: rest, h =>
      obtain ⟨⟨id, channel, q⟩, hchannel, h⟩ := bind_eq_ok.1 h
      obtain ⟨hid, hkind, hq⟩ := getChannelQueue_eq hstreaming hchannel
      obtain ⟨active, hactive, h⟩ := bind_eq_ok.1 h
      dsimp only at h hactive hkind hq
      unfold nodeAction
      dsimp only
      rw [hid, ok_bind, hactive, ok_bind]
      cases active with
      | true =>
        rw [if_pos rfl] at h ⊢
        obtain ⟨⟨o, q'⟩, hread, hvalue⟩ := bind_eq_ok.1 h
        rw [hkind] at hread
        refine ⟨_, rfl, ?_⟩
        rcases read_streaming (hgenerators q (mem_of_getElem? hq)) hread with
          ⟨hqueue, ho, hq'⟩ | ⟨v, values, hqueue, ho, hq'⟩
        · rw [ho, hq'] at hvalue
          cases hvalue
          have hset : qs.set id q = qs := by
            obtain ⟨hlt, hget⟩ := List.getElem?_eq_some_iff.1 hq
            rw [← hget, set_getElem_self]
          rw [hset]
          exact .blocked hq hqueue
        · rw [ho, hq'] at hvalue
          obtain ⟨c', hc', hvalue⟩ := bind_eq_ok.1 hvalue
          cases hvalue
          exact .read hq hqueue hc'
      | false =>
        rw [if_neg nofun] at h ⊢
        obtain ⟨c', hc', h⟩ := bind_eq_ok.1 h
        cases h
        rw [hc']
        exact ⟨_, rfl, .internal c'⟩
  | send name hasPredicate =>
    match operands, h with
    | [], h => cases h
    | [_], h => cases h
    | _ :: data :: rest, h =>
      obtain ⟨⟨id, channel, q⟩, hchannel, h⟩ := bind_eq_ok.1 h
      obtain ⟨hid, hkind, hq⟩ := getChannelQueue_eq hstreaming hchannel
      obtain ⟨active, hactive, h⟩ := bind_eq_ok.1 h
      dsimp only at h hactive hkind hq
      unfold nodeAction
      dsimp only
      rw [hid, ok_bind, hactive, ok_bind]
      cases active with
      | true =>
        rw [if_pos rfl] at h ⊢
        obtain ⟨v, hv, h⟩ := bind_eq_ok.1 h
        obtain ⟨⟨error, q'⟩, hwrite, h⟩ := bind_eq_ok.1 h
        rw [hkind] at hwrite
        dsimp only at h hv
        rw [hv, ok_bind]
        cases error with
        | some message => cases h
        | none =>
          obtain ⟨c', hc', h⟩ := bind_eq_ok.1 h
          cases h
          rw [hc', write_streaming hwrite]
          exact ⟨_, rfl, .write hq⟩
      | false =>
        rw [if_neg nofun] at h ⊢
        obtain ⟨c', hc', h⟩ := bind_eq_ok.1 h
        cases h
        rw [hc']
        exact ⟨_, rfl, .internal c'⟩
  | _ => exact hlocal h

/-! ### The network of the instances -/

/-- A step of an instance; the label says whether it is the end of an activation. -/
inductive LocalStep (e : Elaboration) (inst : ProcInstance) (c : ProcContinuation) :
    Event Nat Value Bool → ProcContinuation → Prop
  | complete {c' : ProcContinuation} (hn : inst.proc.nodes[c.nodeIndex]? = none)
      (hc : complete inst.proc c = .ok c') : LocalStep e inst c (.internal true) c'
  | internal {n : ProcNode} {c' : ProcContinuation} (hn : inst.proc.nodes[c.nodeIndex]? = some n)
      (ha : nodeAction e inst n c = .ok (.internal c')) :
      LocalStep e inst c (.internal false) (c'.atIndex (c.nodeIndex + 1))
  | read {n : ProcNode} {id : Nat} {next : Value → Result ProcContinuation} {v : Value}
      {c' : ProcContinuation} (hn : inst.proc.nodes[c.nodeIndex]? = some n)
      (ha : nodeAction e inst n c = .ok (.read id next)) (hv : next v = .ok c') :
      LocalStep e inst c (.read id v) (c'.atIndex (c.nodeIndex + 1))
  | write {n : ProcNode} {id : Nat} {v : Value} {c' : ProcContinuation}
      (hn : inst.proc.nodes[c.nodeIndex]? = some n)
      (ha : nodeAction e inst n c = .ok (.write id v c')) :
      LocalStep e inst c (.write id v) (c'.atIndex (c.nodeIndex + 1))

/-- The state of an instance decides its next step, up to the value of a read. -/
theorem LocalStep.deterministic {c₁ c₂ : ProcContinuation} {a a' : Event Nat Value Bool}
    (h : LocalStep e inst c a c₁) (h' : LocalStep e inst c a' c₂) : a = a' ∧ c₁ = c₂ ∨
      ∃ ch v v', a = .read ch v ∧ a' = .read ch v' ∧ v ≠ v' := by
  cases h with
  | complete hn hc =>
    cases h' with
    | complete _ hc' => exact .inl ⟨rfl, Except.ok.inj (hc.symm.trans hc')⟩
    | internal hn' _ => cases hn.symm.trans hn'
    | read hn' _ _ => cases hn.symm.trans hn'
    | write hn' _ => cases hn.symm.trans hn'
  | internal hn ha =>
    cases h' with
    | complete hn' _ => cases hn.symm.trans hn'
    | internal hn' ha' =>
      cases hn.symm.trans hn'
      cases ha.symm.trans ha'
      exact .inl ⟨rfl, rfl⟩
    | read hn' ha' _ =>
      cases hn.symm.trans hn'
      cases ha.symm.trans ha'
    | write hn' ha' =>
      cases hn.symm.trans hn'
      cases ha.symm.trans ha'
  | @read _ id next v _ hn ha hv =>
    cases h' with
    | complete hn' _ => cases hn.symm.trans hn'
    | internal hn' ha' =>
      cases hn.symm.trans hn'
      cases ha.symm.trans ha'
    | @read _ _ _ v' _ hn' ha' hv' =>
      cases hn.symm.trans hn'
      cases ha.symm.trans ha'
      by_cases hvv : v = v'
      · subst hvv
        cases hv.symm.trans hv'
        exact .inl ⟨rfl, rfl⟩
      · exact .inr ⟨id, v, v', rfl, rfl, hvv⟩
    | write hn' ha' =>
      cases hn.symm.trans hn'
      cases ha.symm.trans ha'
  | write hn ha =>
    cases h' with
    | complete hn' _ => cases hn.symm.trans hn'
    | internal hn' ha' =>
      cases hn.symm.trans hn'
      cases ha.symm.trans ha'
    | read hn' ha' _ =>
      cases hn.symm.trans hn'
      cases ha.symm.trans ha'
    | write hn' ha' =>
      cases hn.symm.trans hn'
      cases ha.symm.trans ha'
      exact .inl ⟨rfl, rfl⟩

/-- The channel of a read is one that the instance receives from, and that of a write one that
it sends on. -/
theorem channel_of_nodeAction {action : Action} (hn : n ∈ inst.proc.nodes)
    (h : nodeAction e inst n c = .ok action) :
    (∀ id next, action = .read id next → id ∈ inst.receives) ∧
      ∀ id v c', action = .write id v c' → id ∈ inst.sends := by
  obtain ⟨op, operands, type⟩ := n
  unfold nodeAction at h
  dsimp only at h
  have hof : ∀ {name id}, channelOf inst name = .ok id → inst.channelInstance name = some id := by
    intro name id hid
    unfold channelOf at hid
    split at hid
    · cases hid
    · cases hid
      assumption
  split at h
  · rename_i name hasPredicate isBlocking _ rest
    obtain ⟨id, hid, h⟩ := bind_eq_ok.1 h
    obtain ⟨active, -, h⟩ := bind_eq_ok.1 h
    split at h
    · cases h
      refine ⟨fun id' next heq => ?_, nofun⟩
      cases heq
      exact mem_filterMap.mpr ⟨_, hn, hof hid⟩
    · obtain ⟨c', -, h⟩ := bind_eq_ok.1 h
      cases h
      exact ⟨nofun, nofun⟩
  · rename_i name hasPredicate _ data rest
    obtain ⟨id, hid, h⟩ := bind_eq_ok.1 h
    obtain ⟨active, -, h⟩ := bind_eq_ok.1 h
    split at h
    · obtain ⟨v, -, h⟩ := bind_eq_ok.1 h
      obtain ⟨c', -, h⟩ := bind_eq_ok.1 h
      cases h
      refine ⟨nofun, fun id' v' c'' heq => ?_⟩
      cases heq
      exact mem_filterMap.mpr ⟨_, hn, hof hid⟩
    · obtain ⟨c', -, h⟩ := bind_eq_ok.1 h
      cases h
      exact ⟨nofun, nofun⟩
  · cases h
  · cases h
  · obtain ⟨c', -, h⟩ := bind_eq_ok.1 h
    cases h
    exact ⟨nofun, nofun⟩

/-- A step of an instance that has a continuation. -/
def InstanceStep (e : Elaboration) (i : Nat) (c : Option ProcContinuation)
    (a : Event Nat Value Bool) (c' : Option ProcContinuation) : Prop :=
  ∃ inst t t', e.instances[i]? = some inst ∧ c = some t ∧ c' = some t' ∧ LocalStep e inst t a t'

theorem InstanceStep.receives {i ch : Nat} {c : Option ProcContinuation}
    (h : InstanceStep e i c (.read ch v) c') : Receives e i ch := by
  obtain ⟨inst, t, t', hinst, rfl, rfl, h⟩ := h
  cases h with
  | read hn ha _ =>
    exact ⟨inst, hinst, (channel_of_nodeAction (mem_of_getElem? hn) ha).1 _ _ rfl⟩

theorem InstanceStep.sends {i ch : Nat} {c : Option ProcContinuation}
    (h : InstanceStep e i c (.write ch v) c') : Sends e i ch := by
  obtain ⟨inst, t, t', hinst, rfl, rfl, h⟩ := h
  cases h with
  | write hn ha =>
    exact ⟨inst, hinst, (channel_of_nodeAction (mem_of_getElem? hn) ha).2 _ _ _ rfl⟩

/-- The instances as processes, if every channel has one reader and one writer. -/
def processes (e : Elaboration) (hreader : SingleReader e) (hwriter : SingleWriter e) :
    System Nat (Option ProcContinuation) Nat Value Bool where
  step := InstanceStep e
  deterministic := by
    rintro i s a a' s₁ s₂ ⟨inst, t, t₁, hinst, rfl, rfl, h⟩ ⟨inst', t', t₂, hinst', ht, rfl, h'⟩
    cases ht
    cases hinst.symm.trans hinst'
    exact (h.deterministic h').imp (fun ⟨ha, ht⟩ => ⟨ha, congrArg some ht⟩) id
  reader h h' := hreader _ _ _ h.receives h'.receives
  writer h h' := hwriter _ _ _ h.sends h'.sends

end Xls.ProcInterpreter

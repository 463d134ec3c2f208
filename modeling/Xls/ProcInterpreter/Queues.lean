import Xls.ProcInterpreter

/-!
# Xls.ProcInterpreter.Queues

What a tick does to the queues. Reading never fills a queue, so a queue that is empty stays
empty until a value is sent, and a tick ends with the first value that it sends
(`tick_effect`).
-/

namespace Xls.ProcInterpreter

open Result ChannelQueue List

/-- The queue of the channel instance has no value. -/
def EmptyAt (qs : List Queue) (ch : Nat) : Prop := ∀ q, qs[ch]? = some q → q.queue = []

/-- A generator is only attached to the queue of a streaming channel, as `AttachGenerator`
checks. -/
def GeneratorsStream (e : Elaboration) (qs : List Queue) : Prop :=
  ∀ (ch : Nat) channel q, e.channels[ch]? = some channel → qs[ch]? = some q →
    q.generator.isSome = true → channel.kind = .streaming

/-- What happened to the queues while a value was written to at most one of them. -/
structure Effect (e : Elaboration) (qs qs' : List Queue) (written : Option Nat) : Prop where
  streams : GeneratorsStream e qs → GeneratorsStream e qs'
  empty : GeneratorsStream e qs → ∀ ch, written ≠ some ch → EmptyAt qs ch → EmptyAt qs' ch

variable {e : Elaboration}

theorem Effect.refl (qs : List Queue) (written : Option Nat) : Effect e qs qs written :=
  ⟨id, fun _ _ _ h => h⟩

variable {qs : List Queue} {q : Queue} {channel : Channel Value} {inst : ProcInstance}
  {n : ProcNode} {x x' : Execution} {r : TickResult}

theorem Effect.trans {qs' qs'' : List Queue} {written : Option Nat} (h : Effect e qs qs' none)
    (h' : Effect e qs' qs'' written) : Effect e qs qs'' written where
  streams hs := h'.streams (h.streams hs)
  empty hs ch hch hempty := h'.empty (h.streams hs) ch hch (h.empty hs ch (by simp) hempty)

/-! ### Reading and writing -/

variable {kind : ChannelKind} {q' : Queue} {name startingIndex ch : Nat} {predicate : Option Nat}
  {ns : List ProcNode}

/-- What a read leaves. -/
theorem read_spec {v : Option Value} (h : q.read (deque kind) = .ok (v, q')) :
    q'.generator = q.generator ∧ (v = none → q'.queue = []) ∧
      ((q.generator.isSome = true → kind = .streaming) → q.queue = [] → q'.queue = []) := by
  obtain ⟨r, hr, hread⟩ := bind_eq_ok.1 h
  have hrest : q'.generator = r.generator ∧ (v = none → q'.queue = []) ∧
      (kind = .streaming → r.queue.length ≤ 1 → q'.queue = []) ∧
      (r.queue = [] → q'.queue = []) := by
    obtain ⟨⟨v', queue⟩, hqueue, hpure⟩ := bind_eq_ok.1 hread
    cases hpure
    unfold deque at hqueue
    dsimp only at hqueue
    cases hr : r.queue with
    | nil =>
      rw [hr] at hqueue
      cases hqueue
      exact ⟨rfl, fun _ => rfl, fun _ _ => rfl, fun _ => rfl⟩
    | cons x rest =>
      rw [hr] at hqueue
      cases kind with
      | streaming =>
        cases hqueue
        refine ⟨rfl, nofun, fun _ hlength => ?_, nofun⟩
        exact length_eq_zero_iff.mp (Nat.le_zero.mp (Nat.le_of_succ_le_succ hlength))
      | singleValue =>
        cases hqueue
        exact ⟨rfl, nofun, nofun, nofun⟩
  obtain ⟨hgenerator, hnone, hshort, hnil⟩ := hrest
  unfold generate at hr
  cases hgen : q.generator with
  | none =>
    rw [hgen] at hr
    cases hr
    exact ⟨hgenerator.trans hgen, hnone, fun _ => hnil⟩
  | some g =>
    rw [hgen] at hr
    dsimp only at hr
    cases hvalue : g q.generated with
    | none =>
      rw [hvalue] at hr
      cases hr
      exact ⟨hgenerator, hnone, fun _ => hnil⟩
    | some value =>
      rw [hvalue] at hr
      obtain ⟨queue, hwrite, hpure⟩ := bind_eq_ok.1 hr
      cases hpure
      refine ⟨hgenerator, hnone, fun hstream hempty => ?_⟩
      obtain rfl := hstream rfl
      rw [hempty] at hwrite
      cases hwrite
      exact hshort rfl (by simp)

/-- A queue that is replaced has an effect on its channel only. -/
theorem effect_set {id : Nat} {written : Option Nat} (hchannel : e.channels[id]? = some channel)
    (hq : qs[id]? = some q) (hgenerator : q'.generator = q.generator)
    (hempty : (q.generator.isSome = true → channel.kind = .streaming) → written ≠ some id →
      q.queue = [] → q'.queue = []) : Effect e qs (qs.set id q') written := by
  have hlt := (List.getElem?_eq_some_iff.1 hq).1
  refine ⟨fun hs ch channel' q'' hchannel' hq'' hsome => ?_, fun hs ch hch hbefore q'' hq'' => ?_⟩
  · by_cases heq : id = ch
    · subst heq
      rw [getElem?_set_self hlt] at hq''
      cases hq''
      exact hs id channel' q hchannel' hq (hgenerator ▸ hsome)
    · rw [getElem?_set_ne heq] at hq''
      exact hs ch channel' q'' hchannel' hq'' hsome
  · by_cases heq : id = ch
    · subst heq
      rw [getElem?_set_self hlt] at hq''
      cases hq''
      exact hempty (hs id channel q hchannel hq) hch (hbefore q hq)
    · rw [getElem?_set_ne heq] at hq''
      exact hbefore q'' hq''

theorem getChannelQueue_spec {id : Nat}
    (h : getChannelQueue e inst qs name = .ok (id, channel, q)) :
    e.channels[id]? = some channel ∧ qs[id]? = some q := by
  unfold getChannelQueue at h
  split at h
  · cases h
  · obtain ⟨channel', hchannel, h⟩ := bind_eq_ok.1 h
    obtain ⟨q', hq, h⟩ := bind_eq_ok.1 h
    cases h
    exact ⟨derefOption_eq_ok.1 hchannel, derefOption_eq_ok.1 hq⟩

/-! ### One node -/

/-- The channel that was written. -/
def NodeResult.written : NodeResult → Option Nat
  | .sent ch => some ch
  | _ => none

/-- What executing a node does: its effect on the queues, and if it blocks, nothing but the
read of an empty queue. -/
structure NodeEffect (e : Elaboration) (x : Execution) (r : NodeResult)
    (x' : Execution) : Prop where
  queues : Effect e x.queues x'.queues r.written
  blocked : ∀ ch, r = .blocked ch → ch < e.channels.length ∧ EmptyAt x'.queues ch ∧
    x'.continuation = x.continuation

/-- A receive changes its own queue only. -/
theorem handleReceive_effect {isBlocking : Bool} {r : NodeResult}
    (h : handleReceive e inst n name predicate isBlocking x = .ok (r, x')) :
    NodeEffect e x r x' := by
  obtain ⟨⟨id, channel, q⟩, hchannel, h⟩ := bind_eq_ok.1 h
  obtain ⟨hchannel, hq⟩ := getChannelQueue_spec hchannel
  obtain ⟨active, -, h⟩ := bind_eq_ok.1 h
  dsimp only at h
  split at h
  · obtain ⟨⟨v, q'⟩, hread, h⟩ := bind_eq_ok.1 h
    obtain ⟨hgenerator, hnone, hempty⟩ := read_spec hread
    have heffect : ∀ written, Effect e x.queues (x.queues.set id q') written := fun written =>
      effect_set hchannel hq hgenerator fun hstream _ => hempty hstream
    dsimp only at h
    split at h
    · split at h
      · -- the channel is empty
        cases h
        refine ⟨heffect _, fun ch hch => ?_⟩
        cases hch
        refine ⟨(List.getElem?_eq_some_iff.1 hchannel).1, fun q'' hq'' => ?_, rfl⟩
        rw [getElem?_set_self (List.getElem?_eq_some_iff.1 hq).1] at hq''
        cases hq''
        exact hnone rfl
      · obtain ⟨c, -, h⟩ := bind_eq_ok.1 h
        cases h
        exact ⟨heffect _, nofun⟩
    · obtain ⟨c, -, h⟩ := bind_eq_ok.1 h
      cases h
      exact ⟨heffect _, nofun⟩
  · obtain ⟨c, -, h⟩ := bind_eq_ok.1 h
    cases h
    exact ⟨.refl _ _, nofun⟩

/-- Writing keeps the generator. -/
theorem write_generator {v : Value} {error : Option String}
    (h : q.write channel (deque kind) v = .ok (error, q')) : q'.generator = q.generator := by
  unfold write at h
  split at h
  · cases h
    rfl
  · split at h
    · cases h
      rfl
    · obtain ⟨queue, -, h⟩ := bind_eq_ok.1 h
      cases h
      rfl

/-- A send changes its own queue only. -/
theorem handleSend_effect {data : Nat} {r : NodeResult}
    (h : handleSend e inst n name data predicate x = .ok (r, x')) : NodeEffect e x r x' := by
  obtain ⟨⟨id, channel, q⟩, hchannel, h⟩ := bind_eq_ok.1 h
  obtain ⟨hchannel, hq⟩ := getChannelQueue_spec hchannel
  obtain ⟨active, -, h⟩ := bind_eq_ok.1 h
  dsimp only at h
  split at h
  · obtain ⟨v, -, h⟩ := bind_eq_ok.1 h
    obtain ⟨⟨error, q'⟩, hwrite, h⟩ := bind_eq_ok.1 h
    dsimp only at h
    split at h
    · cases h
    · obtain ⟨c, -, h⟩ := bind_eq_ok.1 h
      cases h
      refine ⟨effect_set hchannel hq (write_generator hwrite) fun _ hne _ => ?_, nofun⟩
      exact absurd rfl hne
  · obtain ⟨c, -, h⟩ := bind_eq_ok.1 h
    cases h
    exact ⟨.refl _ _, nofun⟩

/-- A node changes no queue but that of its channel. -/
theorem executeNode_effect {r : NodeResult} (h : executeNode e inst n x = .ok (r, x')) :
    NodeEffect e x r x' := by
  unfold executeNode at h
  split at h
  · exact handleReceive_effect h
  · exact handleSend_effect h
  · cases h
  · cases h
  · obtain ⟨c, -, h⟩ := bind_eq_ok.1 h
    cases h
    exact ⟨.refl _ _, nofun⟩

/-! ### A tick -/

/-- The channel that a tick ended with sending on. -/
def TickExecutionState.written : TickExecutionState → Option Nat
  | .sentOnChannel ch => some ch
  | _ => none

/-- What a tick does: its effect on the queues, and if it made no progress, nothing to the
continuation. -/
structure TickEffect (e : Elaboration) (x : Execution) (r : TickResult) (x' : Execution) :
    Prop where
  queues : Effect e x.queues x'.queues r.executionState.written
  blocked : ∀ ch, r.executionState = .blockedOnReceive ch →
    ch < e.channels.length ∧ EmptyAt x'.queues ch
  stalled : r.progressMade = false → x'.continuation = x.continuation

/-- A tick only writes the channel that it says, and a blocked receive leaves its queue empty. -/
theorem tickFrom_effect {i : Nat} (hi : startingIndex ≤ i)
    (hx : startingIndex = i → x.continuation.nodeIndex = startingIndex)
    (h : tickFrom e inst startingIndex ns i x = .ok (r, x')) :
    Effect e x.queues x'.queues r.executionState.written ∧
      (∀ ch, r.executionState = .blockedOnReceive ch →
        ch < e.channels.length ∧ EmptyAt x'.queues ch) ∧
      (r.progressMade = false → startingIndex = i ∧ x'.continuation = x.continuation) := by
  induction ns generalizing i x with
  | nil =>
    obtain ⟨c, -, h⟩ := bind_eq_ok.1 h
    obtain ⟨_, -, h⟩ := bind_eq_ok.1 h
    cases h
    exact ⟨.refl _ _, nofun, nofun⟩
  | cons n ns ih =>
    obtain ⟨⟨result, y⟩, hnode, h⟩ := bind_eq_ok.1 h
    obtain ⟨hqueues, hblocked⟩ := executeNode_effect hnode
    dsimp only at h
    cases result with
    | sent ch =>
      obtain ⟨_, -, h⟩ := bind_eq_ok.1 h
      cases h
      refine ⟨hqueues, nofun, fun hstalled => ?_⟩
      have heq : i + 1 = startingIndex := by simpa using hstalled
      omega
    | blocked ch =>
      obtain ⟨_, -, h⟩ := bind_eq_ok.1 h
      cases h
      obtain ⟨hlt, hempty, hsame⟩ := hblocked ch rfl
      refine ⟨hqueues, fun ch' hch' => ?_, fun hstalled => ?_⟩
      · cases hch'
        exact ⟨hlt, hempty⟩
      · have heq : i = startingIndex := by simpa using hstalled
        refine ⟨heq.symm, ?_⟩
        rw [← hsame, ← show y.continuation.nodeIndex = i by rw [hsame, hx heq.symm, heq]]
    | done =>
      obtain ⟨heffect, hblocked', hstalled⟩ := ih (by omega) (fun heq => by omega) h
      refine ⟨hqueues.trans heffect, hblocked', fun hprogress => ?_⟩
      have heq := (hstalled hprogress).1
      omega

theorem tick_effect (h : tick e inst x = .ok (r, x')) : TickEffect e x r x' := by
  obtain ⟨hqueues, hblocked, hstalled⟩ := tickFrom_effect le_rfl (fun _ => rfl) h
  exact ⟨hqueues, hblocked, fun hprogress => (hstalled hprogress).2⟩

/-! ### The channel of a blocked receive -/

/-- A proc is only blocked on a channel that it receives from. -/
theorem receives_of_executeNode (h : executeNode e inst n x = .ok (.blocked ch, x'))
    (hn : n ∈ inst.proc.nodes) : ch ∈ inst.receives := by
  unfold executeNode at h
  split at h
  · rename_i name hasPredicate isBlocking _ rest hop hoperands
    refine mem_filterMap.mpr ⟨n, hn, ?_⟩
    rw [hop]
    obtain ⟨⟨id, channel, q⟩, hchannel, h⟩ := bind_eq_ok.1 h
    have hid : inst.channelInstance name = some id := by
      unfold getChannelQueue at hchannel
      split at hchannel
      · cases hchannel
      · rename_i id' hid
        obtain ⟨_, -, hchannel⟩ := bind_eq_ok.1 hchannel
        obtain ⟨_, -, hchannel⟩ := bind_eq_ok.1 hchannel
        cases hchannel
        exact hid
    obtain ⟨active, -, h⟩ := bind_eq_ok.1 h
    dsimp only at h
    split at h
    · obtain ⟨⟨v, q'⟩, -, h⟩ := bind_eq_ok.1 h
      dsimp only at h
      split at h
      · split at h
        · cases h
          exact hid
        · obtain ⟨_, -, h⟩ := bind_eq_ok.1 h
          cases h
      · obtain ⟨_, -, h⟩ := bind_eq_ok.1 h
        cases h
    · obtain ⟨_, -, h⟩ := bind_eq_ok.1 h
      cases h
  · obtain ⟨_, -, h⟩ := bind_eq_ok.1 h
    obtain ⟨active, -, h⟩ := bind_eq_ok.1 h
    dsimp only at h
    split at h
    · obtain ⟨_, -, h⟩ := bind_eq_ok.1 h
      obtain ⟨⟨error, _⟩, -, h⟩ := bind_eq_ok.1 h
      dsimp only at h
      split at h
      · cases h
      · obtain ⟨_, -, h⟩ := bind_eq_ok.1 h
        cases h
    · obtain ⟨_, -, h⟩ := bind_eq_ok.1 h
      cases h
  · cases h
  · cases h
  · obtain ⟨_, -, h⟩ := bind_eq_ok.1 h
    cases h

/-- A tick is only blocked on a channel that the proc receives from. -/
theorem receives_of_tickFrom {i : Nat} (hns : ∀ n ∈ ns, n ∈ inst.proc.nodes)
    (h : tickFrom e inst startingIndex ns i x = .ok (r, x'))
    (hr : r.executionState = .blockedOnReceive ch) : ch ∈ inst.receives := by
  induction ns generalizing i x with
  | nil =>
    obtain ⟨c, -, h⟩ := bind_eq_ok.1 h
    obtain ⟨_, -, h⟩ := bind_eq_ok.1 h
    cases h
    cases hr
  | cons n ns ih =>
    obtain ⟨⟨result, y⟩, hnode, h⟩ := bind_eq_ok.1 h
    dsimp only at h
    cases result with
    | sent ch' =>
      obtain ⟨_, -, h⟩ := bind_eq_ok.1 h
      cases h
      cases hr
    | blocked ch' =>
      obtain ⟨_, -, h⟩ := bind_eq_ok.1 h
      cases h
      cases hr
      exact receives_of_executeNode hnode (hns n mem_cons_self)
    | done => exact ih (fun n' hn' => hns n' (mem_cons_of_mem n hn')) h

theorem receives_of_tick (h : tick e inst x = .ok (r, x'))
    (hr : r.executionState = .blockedOnReceive ch) : ch ∈ inst.receives :=
  receives_of_tickFrom (fun _ hn => mem_of_mem_drop hn) h hr

end Xls.ProcInterpreter

import Xls.Status

/-!
# Xls.ChannelQueue

Channel queues (`ChannelQueue` of `interpreter/channel_queue.h`, `channel_queue.cc`). The
virtual functions are a parameter, `Storage`: the interpreter stores the values in a deque,
and the JIT has a storage of its own. Queues over two storages that agree give the same
answers in every run of calls (`agree_run`).
-/

namespace Xls

open Result

/-- `ChannelKind`. -/
inductive ChannelKind
  | streaming
  | singleValue
  deriving DecidableEq

/-- What a queue needs of its channel. -/
structure Channel (V : Type) where
  name : String
  kind : ChannelKind
  /-- `type()->ToString()`. -/
  typeText : String
  /-- `ValueConformsToType`. -/
  conforms : V → Bool
  /-- `Value::ToString`. -/
  valueText : V → String

/-- `GetSizeInternal`, `WriteInternal` and `ReadInternal`. -/
structure Storage (S V : Type) where
  getSizeInternal : S → Nat
  writeInternal : S → V → Result S
  readInternal : S → Result (Option V × S)

/-- A call on a storage. -/
inductive StorageCall (V : Type)
  | getSize
  | write (value : V)
  | read

/-- What a call on a storage returns. -/
inductive StorageAnswer (V : Type)
  | size (size : Nat)
  | written
  | value (value : Option V)
  deriving DecidableEq

namespace Storage

variable {S T V : Type}

/-- A call. -/
def call (storage : Storage S V) (s : S) : StorageCall V → Result (StorageAnswer V × S)
  | .getSize => .ok (.size (storage.getSizeInternal s), s)
  | .write value => do
    let s ← storage.writeInternal s value
    return (.written, s)
  | .read => do
    let (value, s) ← storage.readInternal s
    return (.value value, s)

/-- A run of calls, with their answers. -/
def run (storage : Storage S V) : S → List (StorageCall V) → Result (List (StorageAnswer V) × S)
  | s, [] => .ok ([], s)
  | s, c :: rest => do
    let (answer, s) ← storage.call s c
    let (answers, s) ← run storage s rest
    return (answer :: answers, s)

/-- Two storages that cannot be told apart, for the values of some kind. -/
structure Simulates (left : Storage S V) (right : Storage T V) (ok : V → Prop)
    (R : S → T → Prop) : Prop where
  size : ∀ {s t}, R s t → left.getSizeInternal s = right.getSizeInternal t
  write : ∀ {s t v}, R s t → ok v → ∃ s' t', left.writeInternal s v = .ok s' ∧
    right.writeInternal t v = .ok t' ∧ R s' t'
  read : ∀ {s t}, R s t → ∃ o s' t', left.readInternal s = .ok (o, s') ∧
    right.readInternal t = .ok (o, t') ∧ R s' t'

/-- Two storages in simulation give the same answers to the same calls. -/
theorem Simulates.run {left : Storage S V} {right : Storage T V} {R : S → T → Prop}
    (h : Simulates left right (fun _ => True) R) (calls : List (StorageCall V)) {s : S} {t : T}
    (hR : R s t) : ∃ answers s' t', left.run s calls = .ok (answers, s') ∧
      right.run t calls = .ok (answers, t') := by
  induction calls generalizing s t with
  | nil => exact ⟨[], s, t, rfl, rfl⟩
  | cons c rest ih =>
    have hcall : ∃ answer s' t', left.call s c = .ok (answer, s') ∧
        right.call t c = .ok (answer, t') ∧ R s' t' := by
      cases c with
      | getSize => exact ⟨_, s, t, rfl, by rw [h.size hR]; rfl, hR⟩
      | write v =>
        obtain ⟨s', t', hs, ht, hR'⟩ := h.write hR trivial
        exact ⟨.written, s', t', by rw [call, hs]; rfl, by rw [call, ht]; rfl, hR'⟩
      | read =>
        obtain ⟨o, s', t', hs, ht, hR'⟩ := h.read hR
        exact ⟨.value o, s', t', by rw [call, hs]; rfl, by rw [call, ht]; rfl, hR'⟩
    obtain ⟨answer, s', t', hs, ht, hR'⟩ := hcall
    obtain ⟨answers, s'', t'', hs', ht'⟩ := ih hR'
    refine ⟨answer :: answers, s'', t'', ?_, ?_⟩
    · rw [Storage.run, hs, ok_bind]
      simp only [hs', ok_bind]
      rfl
    · rw [Storage.run, ht, ok_bind]
      simp only [ht', ok_bind]
      rfl

end Storage

/-- The queue of a channel. A generator is the sequence of the values that it returns. -/
structure ChannelQueue (S V : Type) where
  queue : S
  generator : Option (Nat → Option V)
  /-- How often the generator was called. -/
  generated : Nat

namespace ChannelQueue

variable {S V : Type}

/-- A queue without a generator. -/
def new (queue : S) : ChannelQueue S V := ⟨queue, none, 0⟩

/-- The deque of the interpreter. -/
def deque (kind : ChannelKind) : Storage (List V) V where
  getSizeInternal queue := queue.length
  writeInternal queue value :=
    match kind, queue with
    | .singleValue, [] => .ok [value]
    | .singleValue, _ :: rest => .ok (value :: rest)
    | .streaming, queue => .ok (queue ++ [value])
  readInternal queue :=
    match queue with
    | [] => .ok (none, [])
    | value :: rest =>
      match kind with
      | .singleValue => .ok (some value, value :: rest)
      | .streaming => .ok (some value, rest)

/-- A call on a queue. -/
inductive Call (V : Type)
  | getSize
  | write (value : V)
  | read
  | attachGenerator (generator : Nat → Option V)

/-- What a call returns. -/
inductive Answer (V : Type)
  | size (size : Nat)
  /-- A status, with the message of an error. -/
  | status (error : Option String)
  | value (value : Option V)
  deriving DecidableEq

variable (channel : Channel V) (storage : Storage S V)

/-- `AttachGenerator`. -/
def attachGenerator (q : ChannelQueue S V) (generator : Nat → Option V) :
    Option String × ChannelQueue S V :=
  if q.generator.isSome then (some "ChannelQueue already has a generator attached", q)
  else if channel.kind = .singleValue then
    (some (s!"ChannelQueues for single-value channels cannot have a generator. " ++
      s!"Channel: {channel.name}"), q)
  else (none, { q with generator := some generator })

/-- `Write`. -/
def write (q : ChannelQueue S V) (value : V) : Result (Option String × ChannelQueue S V) :=
  if q.generator.isSome then
    .ok (some "Cannot write to ChannelQueue because it has a generator function.", q)
  else if channel.conforms value = false then
    .ok (some (s!"Channel `{channel.name}` expects values to have type {channel.typeText}, " ++
      s!"got: {channel.valueText value}"), q)
  else do
    let queue ← storage.writeInternal q.queue value
    return (none, { q with queue := queue })

/-- The call of the generator, whose value is written before the queue is read. -/
def generate (q : ChannelQueue S V) : Result (ChannelQueue S V) :=
  match q.generator with
  | none => .ok q
  | some generator =>
    match generator q.generated with
    | none => .ok { q with generated := q.generated + 1 }
    | some value => do
      let queue ← storage.writeInternal q.queue value
      return { q with queue := queue, generated := q.generated + 1 }

/-- `Read`. -/
def read (q : ChannelQueue S V) : Result (Option V × ChannelQueue S V) := do
  let q ← q.generate storage
  let (value, queue) ← storage.readInternal q.queue
  return (value, { q with queue := queue })

/-- A call. -/
def call (q : ChannelQueue S V) : Call V → Result (Answer V × ChannelQueue S V)
  | .getSize => .ok (.size (storage.getSizeInternal q.queue), q)
  | .write value => do
    let (error, q) ← q.write channel storage value
    return (.status error, q)
  | .read => do
    let (value, q) ← q.read storage
    return (.value value, q)
  | .attachGenerator generator =>
    let (error, q) := q.attachGenerator channel generator
    .ok (.status error, q)

/-- A run of calls, with their answers. -/
def run : ChannelQueue S V → List (Call V) → Result (List (Answer V) × ChannelQueue S V)
  | q, [] => .ok ([], q)
  | q, c :: rest => do
    let (answer, q) ← q.call channel storage c
    let (answers, q) ← run q rest
    return (answer :: answers, q)

/-! ### Storages that cannot be told apart -/

variable {T : Type} {ok : V → Prop} {R : S → T → Prop}

/-- The values of a generator are of the type of the channel. -/
def Generates (ok : V → Prop) (generator : Nat → Option V) : Prop :=
  ∀ n v, generator n = some v → ok v

/-- The same queue over two storages. -/
structure Agree (ok : V → Prop) (R : S → T → Prop) (q : ChannelQueue S V)
    (q' : ChannelQueue T V) : Prop where
  queue : R q.queue q'.queue
  generator : q.generator = q'.generator
  generated : q.generated = q'.generated
  generates : ∀ generator, q.generator = some generator → Generates ok generator

variable {channel} {left : Storage S V} {right : Storage T V} {q : ChannelQueue S V}
  {q' : ChannelQueue T V}

/-- Agreeing queues still agree after the generator has run. -/
theorem agree_generate (h : left.Simulates right ok R) (hq : Agree ok R q q') :
    ∃ r r', q.generate left = .ok r ∧ q'.generate right = .ok r' ∧ Agree ok R r r' := by
  unfold generate
  rw [← hq.generator]
  cases hgen : q.generator with
  | none => exact ⟨q, q', rfl, rfl, hq⟩
  | some generator =>
    simp only
    rw [← hq.generated]
    have hgenerator : q'.generator = some generator := hq.generator.symm.trans hgen
    cases hvalue : generator q.generated with
    | none => exact ⟨_, _, rfl, rfl, hq.queue, rfl, rfl, hgen ▸ hq.generates⟩
    | some v =>
      obtain ⟨s, t, hs, ht, hR⟩ := h.write hq.queue (hq.generates generator hgen _ v hvalue)
      simp only [hs, ht, ok_bind]
      exact ⟨_, _, rfl, rfl, hR, rfl, rfl, hgen ▸ hq.generates⟩

section

variable (h : left.Simulates right ok R) (hok : ∀ v, channel.conforms v = true → ok v)
include h hok

/-- A call has the same answer. -/
theorem agree_call (hq : Agree ok R q q') (c : Call V)
    (hc : ∀ generator, c = .attachGenerator generator → Generates ok generator) :
    ∃ answer r r', q.call channel left c = .ok (answer, r) ∧
      q'.call channel right c = .ok (answer, r') ∧ Agree ok R r r' := by
  cases c with
  | getSize => exact ⟨_, q, q', rfl, by rw [call, h.size hq.queue], hq⟩
  | write v =>
    simp only [call, write, ← hq.generator]
    by_cases hgen : q.generator.isSome = true
    · rw [if_pos hgen, if_pos hgen]
      exact ⟨_, q, q', rfl, rfl, hq⟩
    · rw [if_neg hgen, if_neg hgen]
      by_cases hconforms : channel.conforms v = false
      · rw [if_pos hconforms, if_pos hconforms]
        exact ⟨_, q, q', rfl, rfl, hq⟩
      · rw [if_neg hconforms, if_neg hconforms]
        obtain ⟨s, t, hs, ht, hR⟩ := h.write hq.queue (hok v (by simpa using hconforms))
        simp only [hs, ht, ok_bind]
        exact ⟨_, _, _, rfl, rfl, hR, rfl, hq.generated, hq.generates⟩
  | read =>
    obtain ⟨r, r', hr, hr', hagree⟩ := agree_generate h hq
    obtain ⟨o, s, t, hs, ht, hR⟩ := h.read hagree.queue
    simp only [call, read, hr, hr', ok_bind, hs, ht]
    exact ⟨_, _, _, rfl, rfl, hR, hagree.generator, hagree.generated, hagree.generates⟩
  | attachGenerator generator =>
    simp only [call, attachGenerator, ← hq.generator]
    split
    · exact ⟨_, q, q', rfl, rfl, hq⟩
    · split
      · exact ⟨_, q, q', rfl, rfl, hq⟩
      · refine ⟨_, _, _, rfl, rfl, hq.queue, rfl, hq.generated, fun g hg => ?_⟩
        cases hg
        exact hc generator rfl

/-- A run of calls has the same answers. -/
theorem agree_run (calls : List (Call V))
    (hcalls : ∀ generator, .attachGenerator generator ∈ calls → Generates ok generator)
    {q : ChannelQueue S V} {q' : ChannelQueue T V} (hq : Agree ok R q q') :
    ∃ answers r r', q.run channel left calls = .ok (answers, r) ∧
      q'.run channel right calls = .ok (answers, r') := by
  induction calls generalizing q q' with
  | nil => exact ⟨[], q, q', rfl, rfl⟩
  | cons c rest ih =>
    obtain ⟨answer, r, r', hr, hr', hagree⟩ := agree_call h hok hq c fun generator hc =>
      hcalls generator (hc ▸ List.mem_cons_self)
    obtain ⟨answers, t, t', ht, ht'⟩ :=
      ih (fun generator hg => hcalls generator (List.mem_cons_of_mem _ hg)) hagree
    refine ⟨answer :: answers, t, t', ?_, ?_⟩
    · simp only [run, hr, ok_bind, ht]
      rfl
    · simp only [run, hr', ok_bind, ht']
      rfl

end

end ChannelQueue

end Xls

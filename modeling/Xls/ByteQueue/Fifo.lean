import Xls.ByteQueue
import Xls.ChannelQueue

/-!
# Xls.ByteQueue.Fifo

The circular buffer holds the elements of a deque, in order (`isFifo_iff`). A buffer that is
too large for the size that an `int` holds is the exception.
-/

namespace Xls.ByteQueue

open Result ChannelQueue List Nat

variable {channelElementSize : Nat}

/-! ### Slots -/

/-- The slot at a distance from the start of a ring of some number of slots. -/
def slot (count distance : Nat) : Nat := if distance < count then distance else distance - count

variable {count distance : Nat}

theorem slot_lt (h : distance < 2 * count) : slot count distance < count := by
  unfold slot
  split <;> omega

theorem slot_ne {first k n : Nat} (hk : k < n) (hn : n < count) :
    slot count (first + k) ≠ slot count (first + n) := by
  unfold slot
  split <;> split <;> omega

theorem slot_succ (h : distance + 1 < 2 * count) :
    slot count (slot count distance + 1) = slot count (distance + 1) := by
  unfold slot
  by_cases hlt : distance < count
  · rw [if_pos hlt]
  · rw [if_neg hlt, if_pos (by omega), if_neg (by omega)]
    omega

variable {i : Nat} {isSingleValue : Bool}

/-- Bytes in different slots have different addresses. -/
theorem byte_not_in_slot {j size x : Nat} (hne : i ≠ j) (hx : x < size) :
    ¬(j * size ≤ i * size + x ∧ i * size + x - j * size < size) := by
  rcases Nat.lt_or_gt_of_ne hne with h | h
  · have hle : (i + 1) * size ≤ j * size := Nat.mul_le_mul_right size h
    rw [succ_mul] at hle
    omega
  · have hle : (j + 1) * size ≤ i * size := Nat.mul_le_mul_right size h
    rw [succ_mul] at hle
    omega

theorem slot_end_le {size bufferSize : Nat} (hi : i < count) (hcount : count = bufferSize / size) :
    i * size + size ≤ bufferSize := by
  have hle : (i + 1) * size ≤ count * size := Nat.mul_le_mul_right size hi
  have hdiv : bufferSize / size * size ≤ bufferSize := div_mul_le_self _ _
  rw [succ_mul] at hle
  rw [hcount] at hle
  omega

/-! ### What a queue holds -/

/-- The number of slots of the buffer. -/
def slotCount (q : ByteQueue channelElementSize) : Nat := q.bufferSize / q.allocatedElementSize

/-- A buffer of slots that are large enough for the elements. -/
structure Slots (q : ByteQueue channelElementSize) : Prop where
  fits : channelElementSize ≤ q.allocatedElementSize
  pos : 0 < q.allocatedElementSize
  count_pos : 0 < q.slotCount
  max_eq : q.maxByteCount = q.slotCount * q.allocatedElementSize

/-- The queue has the elements in the slots from the first on. -/
structure Ring (q : ByteQueue channelElementSize) (contents : List (Element channelElementSize))
    (first : Nat) : Prop where
  slots : Slots q
  fifo : q.isSingleValue = false
  first_lt : first < q.slotCount
  length_le : contents.length ≤ q.slotCount
  read_eq : q.readIndex = first * q.allocatedElementSize
  used_eq : q.bytesUsed = contents.length * q.allocatedElementSize
  write_eq : q.writeIndex =
    slot q.slotCount (first + contents.length) * q.allocatedElementSize
  element : ∀ k (h : k < contents.length) (x : Fin channelElementSize),
    q.byteAt (slot q.slotCount (first + k) * q.allocatedElementSize + x) = contents[k] x

/-- The queue has at most the value that was written last. -/
structure Single (q : ByteQueue channelElementSize)
    (contents : List (Element channelElementSize)) : Prop where
  slots : Slots q
  single : q.isSingleValue = true
  length_le : contents.length ≤ 1
  read_eq : q.readIndex = 0
  write_eq : q.writeIndex = 0
  used_eq : q.bytesUsed = contents.length * q.allocatedElementSize
  element : ∀ k (h : k < contents.length) (x : Fin channelElementSize),
    q.byteAt x = contents[k] x

variable {q : ByteQueue channelElementSize} {contents : List (Element channelElementSize)}
  {first : Nat}

theorem Slots.slot_end_le (h : Slots q) (hi : i < q.slotCount) :
    i * q.allocatedElementSize + channelElementSize ≤ q.bufferSize := by
  have := ByteQueue.slot_end_le hi rfl
  have := h.fits
  omega

theorem Slots.mul_eq_iff (h : Slots q) {j : Nat} :
    i * q.allocatedElementSize = j * q.allocatedElementSize ↔ i = j :=
  ⟨fun heq => eq_of_mul_eq_mul_right h.pos heq, fun heq => by rw [heq]⟩

/-- The next slot. -/
theorem Slots.advance_slot (h : Slots q) (hlt : distance < 2 * q.slotCount) :
    q.advance (slot q.slotCount distance * q.allocatedElementSize) =
      slot q.slotCount (slot q.slotCount distance + 1) * q.allocatedElementSize := by
  have hslot := slot_lt hlt
  generalize slot q.slotCount distance = i at hslot ⊢
  simp only [advance, h.max_eq, ← succ_mul, h.mul_eq_iff]
  unfold slot
  by_cases heq : i + 1 = q.slotCount
  · have hzero : i + 1 - q.slotCount = 0 := by omega
    rw [if_pos heq, if_neg (by omega), hzero, Nat.zero_mul]
  · rw [if_neg heq, if_pos (by omega)]

/-! ### Writes -/

/-- What the resizing of a full queue does. -/
structure Resized (q q' : ByteQueue channelElementSize) : Prop where
  single_eq : q'.isSingleValue = q.isSingleValue
  allocated_eq : q'.allocatedElementSize = q.allocatedElementSize
  used_eq : q'.bytesUsed = q.bytesUsed
  read_eq : q'.readIndex = q.readIndex
  buffer_eq : q'.bufferSize = q.bufferSize * 2
  max_eq : q'.maxByteCount = q'.slotCount * q'.allocatedElementSize
  write_eq : q'.writeIndex = q.bytesUsed + q.readIndex
  stay : ∀ i, i < q.bytesUsed → q'.byteAt i = q.byteAt i
  move : ∀ i, i < q.readIndex → q'.byteAt (q.bytesUsed + i) = q.byteAt i

theorem Slots.double_le (h : Slots q) :
    2 * q.slotCount ≤ q.bufferSize * 2 / q.allocatedElementSize := by
  rw [Nat.le_div_iff_mul_le h.pos]
  have hle : q.slotCount * q.allocatedElementSize ≤ q.bufferSize := div_mul_le_self _ _
  calc 2 * q.slotCount * q.allocatedElementSize
      = q.slotCount * q.allocatedElementSize * 2 := by ring
    _ ≤ q.bufferSize * 2 := Nat.mul_le_mul_right 2 hle

/-- Growing a full ring keeps its contents, in order from the first slot. -/
theorem Ring.resized (h : Ring q contents first) (hfull : contents.length = q.slotCount) :
    ∃ q', q.resize = .ok q' ∧ Resized q q' := by
  have hused : q.bytesUsed = q.slotCount * q.allocatedElementSize := by rw [h.used_eq, hfull]
  have hmove : q.bytesUsed + q.readIndex = (q.slotCount + first) * q.allocatedElementSize := by
    rw [hused, h.read_eq, Nat.add_mul]
  have hbuffer : q.slotCount * q.allocatedElementSize ≤ q.bufferSize := div_mul_le_self _ _
  have hfirst := h.first_lt
  have hread : q.readIndex ≤ q.bytesUsed := by
    rw [h.read_eq, hused]
    exact Nat.mul_le_mul_right _ hfirst.le
  have hcheck : q.readIndex = 0 ∨ q.bytesUsed + q.readIndex ≤ q.bufferSize * 2 := by omega
  have hdouble := h.slots.double_le
  have hwrite : q.bytesUsed + q.readIndex ≠
      usableByteCount (q.bufferSize * 2) q.allocatedElementSize := by
    rw [hmove, usableByteCount, Ne, h.slots.mul_eq_iff]
    omega
  rw [ByteQueue.resize, decide_eq_true hcheck]
  refine ⟨_, rfl, rfl, rfl, rfl, rfl, rfl, rfl, if_neg hwrite, fun i hi => ?_, fun i hi => ?_⟩
  · dsimp only
    rw [if_neg (by omega), if_pos (by omega)]
  · dsimp only
    rw [if_pos (by omega), Nat.add_sub_cancel_left, if_pos (by omega)]

/-- A resized buffer has the same elements, and free slots. -/
theorem Ring.resize (h : Ring q contents first) (hfull : contents.length = q.slotCount) :
    ∃ q', q.resize = .ok q' ∧ Ring q' contents first ∧ contents.length < q'.slotCount := by
  obtain ⟨q', hrun, hq'⟩ := h.resized hfull
  have hcount : 2 * q.slotCount ≤ q'.slotCount := by
    show 2 * q.slotCount ≤ q'.bufferSize / q'.allocatedElementSize
    rw [hq'.buffer_eq, hq'.allocated_eq]
    exact h.slots.double_le
  have hpos := h.slots.count_pos
  have hfirst := h.first_lt
  have hused : q.bytesUsed = q.slotCount * q.allocatedElementSize := by rw [h.used_eq, hfull]
  have hslot : ∀ k, k ≤ contents.length → slot q'.slotCount (first + k) = first + k := by
    intro k hk
    unfold slot
    rw [if_pos (by omega)]
  refine ⟨q', hrun, ⟨⟨?_, ?_, by omega, hq'.max_eq⟩, ?_, by omega, by omega, ?_, ?_, ?_, ?_⟩,
    by omega⟩
  · rw [hq'.allocated_eq]
    exact h.slots.fits
  · rw [hq'.allocated_eq]
    exact h.slots.pos
  · rw [hq'.single_eq]
    exact h.fifo
  · rw [hq'.read_eq, hq'.allocated_eq]
    exact h.read_eq
  · rw [hq'.used_eq, hq'.allocated_eq]
    exact h.used_eq
  · rw [hslot _ (le_refl _), hq'.write_eq, hq'.allocated_eq, hused, h.read_eq, hfull, Nat.add_mul,
      Nat.add_comm]
  · intro k hk x
    have hx : (x : Nat) < q.allocatedElementSize := lt_of_lt_of_le x.isLt h.slots.fits
    rw [hslot k hk.le, hq'.allocated_eq, ← h.element k hk x]
    unfold slot
    by_cases hwrapped : first + k < q.slotCount
    · -- An element before the end of the old buffer stays where it is.
      have hle : (first + k + 1) * q.allocatedElementSize ≤
          q.slotCount * q.allocatedElementSize := Nat.mul_le_mul_right _ hwrapped
      rw [succ_mul] at hle
      rw [if_pos hwrapped]
      exact hq'.stay _ (by omega)
    · -- A wrapped element moves behind the old end.
      obtain ⟨j, hj⟩ : ∃ j, first + k = q.slotCount + j := ⟨first + k - q.slotCount, by omega⟩
      have hlt : j < first := by omega
      have hle : (j + 1) * q.allocatedElementSize ≤ first * q.allocatedElementSize :=
        Nat.mul_le_mul_right _ hlt
      have hread := h.read_eq
      rw [succ_mul] at hle
      rw [if_neg hwrapped, hj, Nat.add_sub_cancel_left, Nat.add_mul, ← hused, Nat.add_assoc]
      exact hq'.move _ (by omega)

/-- What storing an element does. -/
structure Stored (q q' : ByteQueue channelElementSize) (data : Element channelElementSize) :
    Prop where
  rest : ∃ byteAt, q' = { q with byteAt := byteAt }
  inside : ∀ x : Fin channelElementSize, q'.byteAt (q.writeIndex + x) = data x
  outside : ∀ i, ¬(q.writeIndex ≤ i ∧ i - q.writeIndex < channelElementSize) →
    q'.byteAt i = q.byteAt i

/-- An element is stored at the write index. -/
theorem store_spec (hend : q.writeIndex + channelElementSize ≤ q.bufferSize)
    (data : Element channelElementSize) : ∃ q', q.store data = .ok q' ∧ Stored q q' data := by
  rw [store, decide_eq_true hend]
  refine ⟨_, rfl, ⟨_, rfl⟩, fun x => ?_, fun i hi => ?_⟩
  · have hx := x.isLt
    have haddr : q.writeIndex ≤ q.writeIndex + x ∧ q.writeIndex + x - q.writeIndex <
        channelElementSize := by omega
    simp only [dif_pos haddr]
    congr 1
    exact Fin.ext (Nat.add_sub_cancel_left _ _)
  · exact dif_neg hi

/-- The queue in which an element was stored in the next slot. -/
theorem Ring.write_notFull (h : Ring q contents first) (hlt : contents.length < q.slotCount)
    (data : Element channelElementSize) :
    ∃ q', q.store data = .ok q' ∧ q'.isSingleValue = false ∧ Ring { q' with
      bytesUsed := q'.bytesUsed + q'.allocatedElementSize
      writeIndex := q'.advance q'.writeIndex } (contents ++ [data]) first := by
  have hfirst := h.first_lt
  have hdistance : first + contents.length < 2 * q.slotCount := by omega
  have hend := h.slots.slot_end_le (slot_lt hdistance)
  have hfits := h.slots.fits
  rw [← h.write_eq] at hend
  obtain ⟨q', hrun, ⟨byteAt, rfl⟩, hinside, houtside⟩ := store_spec hend data
  have hlength : (contents ++ [data]).length = contents.length + 1 := by simp
  refine ⟨_, hrun, h.fifo, ⟨hfits, h.slots.pos, h.slots.count_pos, h.slots.max_eq⟩, h.fifo, hfirst,
    ?_, h.read_eq, ?_, ?_, ?_⟩
  · rw [hlength]
    exact hlt
  · simp only [hlength, h.used_eq, succ_mul]
  · have hadvance := h.slots.advance_slot hdistance
    rw [← h.write_eq, slot_succ (by omega)] at hadvance
    rw [hlength]
    exact hadvance
  · intro k hk x
    have hx := lt_of_lt_of_le x.isLt hfits
    by_cases hlast : k = contents.length
    · subst hlast
      have hget : (contents ++ [data])[contents.length] = data := by simp
      have hin := hinside x
      rw [h.write_eq] at hin
      rw [hget]
      exact hin
    · have hk' : k < contents.length := by omega
      have hne : slot q.slotCount (first + k) ≠ slot q.slotCount (first + contents.length) :=
        slot_ne hk' hlt
      have hnot := byte_not_in_slot hne hx
      rw [← h.write_eq] at hnot
      rw [getElem_append_left hk', ← h.element k hk' x]
      show byteAt (slot q.slotCount (first + k) * q.allocatedElementSize + x) = _
      exact houtside _ (by omega)

/-- A write appends. -/
theorem Ring.write (h : Ring q contents first) (data : Element channelElementSize) :
    ∃ q', q.write data = .ok q' ∧ Ring q' (contents ++ [data]) first := by
  have hfull : (q.bytesUsed = q.maxByteCount ∧ q.isSingleValue = false) ↔
      contents.length = q.slotCount := by
    rw [h.used_eq, h.slots.max_eq, h.slots.mul_eq_iff]
    exact and_iff_left h.fifo
  rw [ByteQueue.write]
  by_cases heq : contents.length = q.slotCount
  · obtain ⟨q₁, hresize, h₁, hlt⟩ := h.resize heq
    obtain ⟨q₂, hstore, hsingle, h₂⟩ := h₁.write_notFull hlt data
    rw [if_pos (hfull.mpr heq), hresize]
    simp only [ok_bind, hstore]
    rw [if_neg (by rw [hsingle]; decide)]
    exact ⟨_, rfl, h₂⟩
  · have hlt : contents.length < q.slotCount := lt_of_le_of_ne h.length_le heq
    obtain ⟨q₂, hstore, hsingle, h₂⟩ := h.write_notFull hlt data
    rw [if_neg (fun hf => heq (hfull.mp hf))]
    simp only [ok_bind, hstore]
    rw [if_neg (by rw [hsingle]; decide)]
    exact ⟨_, rfl, h₂⟩

/-! ### Reads -/

theorem Slots.used_eq_zero (h : Slots q)
    (hused : q.bytesUsed = contents.length * q.allocatedElementSize) :
    q.bytesUsed = 0 ↔ contents = [] := by
  have := h.pos
  rw [hused, Nat.mul_eq_zero, length_eq_zero_iff, or_iff_left (by omega)]

/-- A read takes the first element. -/
theorem Ring.read_cons {v : Element channelElementSize} (h : Ring q (v :: contents) first) :
    ∃ q', q.read = .ok (some v, q') ∧ ∃ first', Ring q' contents first' := by
  have hused : ¬q.bytesUsed = 0 := fun hzero => by
    have := (h.slots.used_eq_zero h.used_eq).mp hzero
    simp at this
  have hfirst := h.first_lt
  have hlength := h.length_le
  have hend := h.slots.slot_end_le hfirst
  rw [← h.read_eq] at hend
  rw [length_cons] at hlength
  have hslot : slot q.slotCount first = first := if_pos hfirst
  have hnext : ∀ k, k < q.slotCount →
      slot q.slotCount (first + (k + 1)) = slot q.slotCount (slot q.slotCount (first + 1) + k) := by
    intro k hk
    unfold slot
    by_cases hlt : first + 1 < q.slotCount
    · rw [if_pos hlt, Nat.add_right_comm, Nat.add_assoc]
    · rw [if_neg hlt, if_neg (by omega), if_pos (by omega)]
      omega
  have helement : (fun x : Fin channelElementSize => q.byteAt (q.readIndex + x)) = v := by
    funext x
    have := h.element 0 (succ_pos _) x
    rwa [Nat.add_zero, hslot, ← h.read_eq] at this
  rw [ByteQueue.read, if_neg hused, load, decide_eq_true hend]
  simp only [checkThat_true, ok_bind, helement, pure_bind]
  rw [if_neg (by rw [h.fifo]; decide)]
  refine ⟨_, rfl, slot q.slotCount (first + 1), ⟨h.slots.fits, h.slots.pos, h.slots.count_pos,
    h.slots.max_eq⟩, h.fifo, slot_lt (by omega), ?_, ?_, ?_, ?_, ?_⟩
  · exact le_of_succ_le hlength
  · have hadvance : q.advance (slot q.slotCount first * q.allocatedElementSize) = _ :=
      h.slots.advance_slot (by omega)
    rw [hslot, ← h.read_eq] at hadvance
    exact hadvance
  · simp only [h.used_eq, length_cons, succ_mul, Nat.add_sub_cancel]
  · have hwrite := h.write_eq
    rw [length_cons, hnext _ (by omega)] at hwrite
    exact hwrite
  · intro k hk x
    have hold := h.element (k + 1) (succ_lt_succ hk) x
    rw [hnext k (by omega)] at hold
    exact hold

theorem Ring.read_nil (h : Ring q [] first) : q.read = .ok (none, q) := by
  have hused : q.bytesUsed = 0 := (h.slots.used_eq_zero h.used_eq).mpr rfl
  rw [ByteQueue.read, if_pos hused]
  rfl

/-! ### A single value -/

/-- A write replaces the value. -/
theorem Single.write (h : Single q contents) (data : Element channelElementSize) :
    ∃ q', q.write data = .ok q' ∧ Single q' [data] := by
  have hend := h.slots.slot_end_le h.slots.count_pos
  rw [Nat.zero_mul, ← h.write_eq] at hend
  obtain ⟨q', hrun, ⟨byteAt, rfl⟩, hinside, -⟩ := store_spec hend data
  have hnot : ¬(q.bytesUsed = q.maxByteCount ∧ q.isSingleValue = false) := by
    rw [h.single]
    simp
  rw [ByteQueue.write, if_neg hnot]
  simp only [ok_bind, hrun]
  rw [if_pos h.single]
  refine ⟨_, rfl, ⟨h.slots.fits, h.slots.pos, h.slots.count_pos, h.slots.max_eq⟩, h.single,
    le_refl _, h.read_eq, h.write_eq, (Nat.one_mul _).symm, fun k hk x => ?_⟩
  have hzero : k = 0 := lt_one_iff.mp hk
  subst hzero
  have hin := hinside x
  rw [h.write_eq, Nat.zero_add] at hin
  exact hin

/-- A read leaves the value. -/
theorem Single.read (h : Single q contents) : q.read = .ok (contents.head?, q) := by
  cases contents with
  | nil =>
    have hused : q.bytesUsed = 0 := (h.slots.used_eq_zero h.used_eq).mpr rfl
    rw [ByteQueue.read, if_pos hused]
    rfl
  | cons v rest =>
    have hused : ¬q.bytesUsed = 0 := fun hzero => by
      have := (h.slots.used_eq_zero h.used_eq).mp hzero
      simp at this
    have hend := h.slots.slot_end_le h.slots.count_pos
    rw [Nat.zero_mul, ← h.read_eq] at hend
    have helement : (fun x : Fin channelElementSize => q.byteAt (q.readIndex + x)) = v := by
      funext x
      rw [h.read_eq, Nat.zero_add]
      exact h.element 0 (succ_pos _) x
    rw [ByteQueue.read, if_neg hused, load, decide_eq_true hend]
    simp only [checkThat_true, ok_bind, helement, pure_bind]
    rw [if_pos h.single]
    rfl

/-! ### The queue and the deque -/

/-- `WriteInternal`, `ReadInternal` and `GetSizeInternal` on raw bytes. -/
def rawStorage (channelElementSize : Nat) :
    Storage (ByteQueue channelElementSize) (Element channelElementSize) where
  getSizeInternal := size
  writeInternal := write
  readInternal := read

/-- The channels that have a queue for a single value. -/
def kindOf (isSingleValue : Bool) : ChannelKind :=
  if isSingleValue then .singleValue else .streaming

/-- The elements that a queue holds. -/
def Holds (isSingleValue : Bool) (q : ByteQueue channelElementSize)
    (contents : List (Element channelElementSize)) : Prop :=
  if isSingleValue then Single q contents else ∃ first, Ring q contents first

theorem size_eq (hpos : 0 < q.allocatedElementSize)
    (hused : q.bytesUsed = contents.length * q.allocatedElementSize) :
    q.size = contents.length := by
  rw [size, hused, Nat.mul_div_cancel _ hpos]

/-- The queue cannot be told from the deque of the interpreter. -/
theorem simulates_deque (isSingleValue : Bool) :
    (rawStorage channelElementSize).Simulates (deque (kindOf isSingleValue))
      (fun _ => True) (Holds isSingleValue) := by
  cases isSingleValue with
  | false =>
    constructor
    case size =>
        rintro q contents ⟨first, h⟩
        exact size_eq h.slots.pos h.used_eq
    case write =>
        rintro q contents v ⟨first, h⟩ -
        obtain ⟨q', hrun, h'⟩ := h.write v
        exact ⟨q', _, hrun, by rfl, first, h'⟩
    case read =>
        rintro q contents ⟨first, h⟩
        cases contents with
        | nil => exact ⟨none, q, [], h.read_nil, rfl, first, h⟩
        | cons v rest =>
          obtain ⟨q', hrun, h'⟩ := h.read_cons
          exact ⟨some v, q', rest, hrun, rfl, h'⟩
  | true =>
    constructor
    case size =>
        intro q contents h
        exact size_eq h.slots.pos h.used_eq
    case write =>
        intro q contents v h _
        obtain ⟨q', hrun, h'⟩ := Single.write h v
        refine ⟨q', [v], hrun, ?_, h'⟩
        match contents, Single.length_le h with
        | [], _ => rfl
        | [w], _ => rfl
    case read =>
        intro q contents h
        refine ⟨contents.head?, q, contents, Single.read h, ?_, h⟩
        cases contents with
        | nil => rfl
        | cons v rest => rfl

/-! ### The queue of a channel -/

/-- `JitRuntime`, for the type of a channel: the bytes of a value in the native layout. -/
structure JitRuntime (V : Type) (channelElementSize : Nat) where
  blitValueToBuffer : V → Element channelElementSize
  unpackBuffer : Element channelElementSize → V

/-- `WriteInternal`, `ReadInternal` and `GetSizeInternal` of the queues of the JIT. -/
def jitStorage {V : Type} (runtime : JitRuntime V channelElementSize) :
    Storage (ByteQueue channelElementSize) V where
  getSizeInternal := size
  writeInternal q value := q.write (runtime.blitValueToBuffer value)
  readInternal q := do
    let (element, q) ← q.read
    return (element.map runtime.unpackBuffer, q)

/-- The values of a channel are read back from their bytes. -/
def RoundTrips {V : Type} (channel : Channel V) (runtime : JitRuntime V channelElementSize) :
    Prop :=
  ∀ v, channel.conforms v = true → runtime.unpackBuffer (runtime.blitValueToBuffer v) = v

/-- The JIT's storage simulates the deque of encoded values. -/
theorem simulates_jit {V : Type} {channel : Channel V} {runtime : JitRuntime V channelElementSize}
    (hruntime : RoundTrips channel runtime) (hkind : channel.kind = kindOf isSingleValue) :
    (jitStorage runtime).Simulates (deque channel.kind)
      (fun v => channel.conforms v = true) fun q values =>
        Holds isSingleValue q (values.map runtime.blitValueToBuffer) ∧
          ∀ v ∈ values, channel.conforms v = true := by
  have hraw : (rawStorage channelElementSize).Simulates _ _ _ := simulates_deque isSingleValue
  rw [← hkind] at hraw
  generalize channel.kind = kind at hraw
  constructor
  case size =>
      rintro q values ⟨h, -⟩
      have hsize := hraw.size h
      simp only [deque, length_map] at hsize
      exact hsize
  case write =>
      rintro q values v ⟨h, hconforms⟩ hv
      obtain ⟨q', contents', hrun, hdeque, h'⟩ :=
        hraw.write (v := runtime.blitValueToBuffer v) h trivial
      have hvalues : ∃ values', (deque kind).writeInternal values v = .ok values' ∧
          contents' = values'.map runtime.blitValueToBuffer ∧
          ∀ w ∈ values', channel.conforms w = true := by
        cases kind with
        | streaming =>
          cases hdeque
          refine ⟨values ++ [v], rfl, by simp, fun w hw => ?_⟩
          rcases mem_append.mp hw with hw | hw
          · exact hconforms w hw
          · rwa [mem_singleton.mp hw]
        | singleValue =>
          cases values with
          | nil =>
            cases hdeque
            exact ⟨[v], rfl, rfl, by simpa using hv⟩
          | cons w rest =>
            cases hdeque
            exact ⟨v :: rest, rfl, rfl, forall_mem_cons.mpr
              ⟨hv, fun u hu => hconforms u (mem_cons_of_mem _ hu)⟩⟩
      obtain ⟨values', hvalues, rfl, hconforms'⟩ := hvalues
      exact ⟨q', values', hrun, hvalues, h', hconforms'⟩
  case read =>
      rintro q values ⟨h, hconforms⟩
      obtain ⟨o, q', contents', hrun, hdeque, h'⟩ := hraw.read h
      have hread : q.read = .ok (o, q') := hrun
      cases values with
      | nil =>
        cases hdeque
        exact ⟨none, q', [], by rw [jitStorage]; simp only [hread, ok_bind]; rfl, rfl, h',
          by simp⟩
      | cons v rest =>
        have hv := hruntime v (hconforms v mem_cons_self)
        cases kind with
        | streaming =>
          cases hdeque
          refine ⟨some v, q', rest, ?_, rfl, h', fun u hu =>
            hconforms u (mem_cons_of_mem _ hu)⟩
          simp only [jitStorage, hread, ok_bind, Option.map_some, hv]
          rfl
        | singleValue =>
          cases hdeque
          refine ⟨some v, q', v :: rest, ?_, rfl, h', hconforms⟩
          simp only [jitStorage, hread, ok_bind, Option.map_some, hv]
          rfl

/-! ### The size of the buffer -/

/-- Every run of reads and writes is one of a deque of elements, and stays in the buffer. -/
def IsFifo (channelElementSize : Nat) (isSingleValue : Bool) : Prop :=
  ∃ q, new channelElementSize isSingleValue = .ok q ∧
    ∀ calls, ∃ answers q' contents', (rawStorage channelElementSize).run q calls =
        .ok (answers, q') ∧
      (deque (kindOf isSingleValue)).run [] calls = .ok (answers, contents')

/-- The queues of the JIT and of the interpreter give the same answers. -/
def AgreesWithInterpreter (channelElementSize : Nat) (isSingleValue : Bool) : Prop :=
  ∃ q, new channelElementSize isSingleValue = .ok q ∧
    ∀ (V : Type) (channel : Channel V) (runtime : JitRuntime V channelElementSize),
      RoundTrips channel runtime → channel.kind = kindOf isSingleValue →
      ∀ calls, (∀ generator, .attachGenerator generator ∈ calls →
          Generates (fun v => channel.conforms v = true) generator) →
        ∃ answers q' r', (ChannelQueue.new q).run channel (jitStorage runtime) calls =
            .ok (answers, q') ∧
          (ChannelQueue.new []).run channel (deque channel.kind) calls =
            .ok (answers, r')

theorem allocatedSize_spec (channelElementSize : Nat) :
    channelElementSize ≤ allocatedSize channelElementSize ∧ 0 < allocatedSize channelElementSize ∧
      (allocatedSize channelElementSize ≤ 2 ^ 30 ↔ channelElementSize ≤ 2 ^ 30) := by
  unfold allocatedSize roundUpToNearest maxAlign
  dsimp only
  split <;> omega

/-- The buffer of a new queue has room for an element, if its size fits an `int`. -/
theorem new_spec (hsize : channelElementSize ≤ 2 ^ 30) (isSingleValue : Bool) :
    ∃ q : ByteQueue channelElementSize, new channelElementSize isSingleValue = .ok q ∧
      Holds isSingleValue q [] := by
  obtain ⟨hfits, hpos, hiff⟩ := allocatedSize_spec channelElementSize
  have hclog : clog 2 (allocatedSize channelElementSize) ≤ 30 :=
    clog_le_of_le_pow (hiff.mpr hsize)
  have hpow : allocatedSize channelElementSize ≤
      2 ^ clog 2 (allocatedSize channelElementSize) := le_pow_clog (by omega) _
  have hle : 2 ^ clog 2 (allocatedSize channelElementSize) ≤ 2 ^ 30 :=
    Nat.pow_le_pow_right (by omega) hclog
  have hshift : shiftOne (clog 2 (allocatedSize channelElementSize)) =
      .ok ((2 ^ clog 2 (allocatedSize channelElementSize) : Nat) : Int) := by
    have hcast : ((2 ^ clog 2 (allocatedSize channelElementSize) : Nat) : Int) =
        2 ^ clog 2 (allocatedSize channelElementSize) := by push_cast; rfl
    rw [shiftOne, if_pos (by omega), ← hcast, Int.bmod_eq_of_le (by omega) (by omega)]
  rw [new]
  simp only [hshift, ok_bind]
  generalize 2 ^ clog 2 (allocatedSize channelElementSize) = elementSize2 at hpow hle
  have hbuffer : allocatedSize channelElementSize ≤
      if (initBufferSize : Int) < (elementSize2 : Int) then (elementSize2 : Int).toNat
      else initBufferSize := by
    split <;> omega
  generalize (if (initBufferSize : Int) < (elementSize2 : Int) then (elementSize2 : Int).toNat
    else initBufferSize) = size at hbuffer
  have hcount : 0 < size / allocatedSize channelElementSize := Nat.div_pos hbuffer hpos
  refine ⟨_, rfl, ?_⟩
  cases isSingleValue with
  | false =>
    exact ⟨0, ⟨hfits, hpos, hcount, rfl⟩, rfl, hcount, Nat.zero_le _, (Nat.zero_mul _).symm,
      (Nat.zero_mul _).symm, by simp [slot, slotCount, hcount], fun k hk => by simp at hk⟩
  | true =>
    exact ⟨⟨hfits, hpos, hcount, rfl⟩, rfl, Nat.zero_le _, rfl, rfl, (Nat.zero_mul _).symm,
      fun k hk => by simp at hk⟩

/-- The first write to a queue of larger elements leaves the buffer, if there is a queue at
all. -/
theorem write_error (hsize : 2 ^ 30 < channelElementSize) {q : ByteQueue channelElementSize}
    (hnew : new channelElementSize isSingleValue = .ok q) (data : Element channelElementSize) :
    q.write data = .error .check := by
  obtain ⟨hfits, hpos, hiff⟩ := allocatedSize_spec channelElementSize
  have hclog : 31 ≤ clog 2 (allocatedSize channelElementSize) := by
    rw [← not_lt, Nat.lt_succ_iff]
    intro hle
    have hpow := le_pow_clog (b := 2) (by omega) (allocatedSize channelElementSize)
    have := Nat.pow_le_pow_right (n := 2) (by omega) hle
    exact absurd (hiff.mp (le_trans hpow this)) (by omega)
  obtain ⟨elementSize2, hshift, hnew⟩ := bind_eq_ok.mp hnew
  rw [shiftOne] at hshift
  split at hshift
  · have h31 : clog 2 (allocatedSize channelElementSize) = 31 := by omega
    rw [h31] at hshift
    cases hshift
    cases hnew
    have hbuffer : (if (initBufferSize : Int) < Int.bmod (2 ^ 31) (2 ^ 32)
        then (Int.bmod (2 ^ 31) (2 ^ 32)).toNat else initBufferSize) = 128 := by decide
    have hstore : ¬channelElementSize ≤ 128 := by omega
    have hstore' : ¬channelElementSize ≤ 256 := by omega
    have husable : usableByteCount 128 (allocatedSize channelElementSize) = 0 := by
      rw [usableByteCount, div_eq_of_lt (by omega), Nat.zero_mul]
    rw [hbuffer]
    cases isSingleValue with
    | false =>
      simp [write, resize, store, husable, hstore']
    | true =>
      simp [write, store, hstore]
  · cases hshift

theorem not_isFifo (hsize : 2 ^ 30 < channelElementSize) (isSingleValue : Bool) :
    ¬IsFifo channelElementSize isSingleValue := by
  rintro ⟨q, hnew, hrun⟩
  obtain ⟨answers, q', contents', hcall, -⟩ := hrun [.write fun _ => 0]
  obtain ⟨⟨answer, q₁⟩, hwrite, -⟩ := bind_eq_ok.mp hcall
  obtain ⟨q₂, hwrite, -⟩ := bind_eq_ok.mp hwrite
  have herror := write_error hsize hnew fun _ => 0
  rw [rawStorage] at hwrite
  simp only [herror] at hwrite
  cases hwrite

/-- The queue is a FIFO, and agrees with that of the interpreter, if and only if the size of an
element is at most `2 ^ 30`. -/
theorem isFifo_iff (channelElementSize : Nat) (isSingleValue : Bool) :
    IsFifo channelElementSize isSingleValue ∧
        AgreesWithInterpreter channelElementSize isSingleValue ↔ channelElementSize ≤ 2 ^ 30 := by
  constructor
  · rintro ⟨hfifo, -⟩
    by_contra hsize
    exact not_isFifo (not_le.mp hsize) isSingleValue hfifo
  · intro hsize
    obtain ⟨q, hnew, hholds⟩ := new_spec hsize isSingleValue
    refine ⟨⟨q, hnew, fun calls => (simulates_deque isSingleValue).run calls hholds⟩, q, hnew, ?_⟩
    intro V channel runtime hruntime hkind calls hcalls
    exact agree_run (simulates_jit hruntime hkind) (fun v hv => hv) calls hcalls
      ⟨⟨hholds, by simp [ChannelQueue.new]⟩, rfl, rfl, fun generator hg => nomatch hg⟩

/-- A queue for elements of `2 ^ 31` bytes has a buffer of 128 bytes. -/
theorem not_isFifo_large : ¬(IsFifo (2 ^ 31) false ∧ AgreesWithInterpreter (2 ^ 31) false) :=
  fun h => not_isFifo (by decide) false h.1

end Xls.ByteQueue

import Mathlib.Data.Nat.Log
import Xls.Status

/-!
# Xls.ByteQueue

The queue of the JIT (`ByteQueue` of `jit/jit_channel_queue.h`, `jit_channel_queue.cc`): a
circular buffer of bytes that doubles when it is full.
-/

namespace Xls

/-- An element of a queue: its bytes. -/
abbrev Element (channelElementSize : Nat) := Fin channelElementSize → UInt8

/-- A queue of elements of `channel_element_size_` bytes. -/
structure ByteQueue (channelElementSize : Nat) where
  allocatedElementSize : Nat
  maxByteCount : Nat
  bytesUsed : Nat
  readIndex : Nat
  writeIndex : Nat
  /-- `circular_buffer_.size()`. -/
  bufferSize : Nat
  /-- `circular_buffer_`, by index. -/
  byteAt : Nat → UInt8
  isSingleValue : Bool

namespace ByteQueue

/-- `alignof(std::max_align_t)`. -/
def maxAlign : Nat := 16

/-- `kInitBufferSize`. -/
def initBufferSize : Nat := 128

/-- `RoundUpToNearest`. -/
def roundUpToNearest (value divisor : Nat) : Nat := (value + divisor - 1) / divisor * divisor

/-- `1 << shift`, in an `int`; a shift by the width of an `int` or more is undefined. -/
def shiftOne (shift : Nat) : Result Int :=
  if shift < 32 then .ok (Int.bmod (2 ^ shift) (2 ^ 32)) else .error .check

/-- The bytes of a buffer that hold whole elements. -/
def usableByteCount (bufferSize allocatedElementSize : Nat) : Nat :=
  bufferSize / allocatedElementSize * allocatedElementSize

/-- `allocated_element_size_`, at least one for empty tuples. -/
def allocatedSize (channelElementSize : Nat) : Nat :=
  let rounded := roundUpToNearest channelElementSize maxAlign
  if rounded = 0 then 1 else rounded

/-- `ByteQueue::ByteQueue`. -/
def new (channelElementSize : Nat) (isSingleValue : Bool) :
    Result (ByteQueue channelElementSize) := do
  let allocated := allocatedSize channelElementSize
  let elementSize2 ← shiftOne (Nat.clog 2 allocated)
  let size := if (initBufferSize : Int) < elementSize2 then elementSize2.toNat else initBufferSize
  return {
    allocatedElementSize := allocated
    maxByteCount := usableByteCount size allocated
    bytesUsed := 0
    readIndex := 0
    writeIndex := 0
    bufferSize := size
    byteAt := fun _ => 0
    isSingleValue := isSingleValue }

variable {channelElementSize : Nat}

/-- `Resize`. -/
def resize (q : ByteQueue channelElementSize) : Result (ByteQueue channelElementSize) := do
  let size := q.bufferSize * 2
  let max := usableByteCount size q.allocatedElementSize
  let resized := fun i => if i < q.bufferSize then q.byteAt i else 0
  -- The move of the bytes before the read index, which must stay inside the buffer.
  checkThat (q.readIndex = 0 ∨ q.bytesUsed + q.readIndex ≤ size)
  let moved := fun i =>
    if q.bytesUsed ≤ i ∧ i < q.bytesUsed + q.readIndex then resized (i - q.bytesUsed)
    else resized i
  let writeIndex := q.bytesUsed + q.readIndex
  return { q with
    bufferSize := size
    maxByteCount := max
    byteAt := moved
    writeIndex := if writeIndex = max then 0 else writeIndex }

/-- `memcpy` of an element into the buffer. -/
def store (q : ByteQueue channelElementSize) (data : Element channelElementSize) :
    Result (ByteQueue channelElementSize) := do
  checkThat (q.writeIndex + channelElementSize ≤ q.bufferSize)
  return { q with
    byteAt := fun i =>
      if h : q.writeIndex ≤ i ∧ i - q.writeIndex < channelElementSize
      then data ⟨i - q.writeIndex, h.2⟩ else q.byteAt i }

/-- `memcpy` of an element out of the buffer. -/
def load (q : ByteQueue channelElementSize) : Result (Element channelElementSize) := do
  checkThat (q.readIndex + channelElementSize ≤ q.bufferSize)
  return fun k => q.byteAt (q.readIndex + k)

/-- An index that moves on by an element, and to the start after the last. -/
def advance (q : ByteQueue channelElementSize) (index : Nat) : Nat :=
  let next := index + q.allocatedElementSize
  if next = q.maxByteCount then 0 else next

/-- `Write`. -/
def write (q : ByteQueue channelElementSize) (data : Element channelElementSize) :
    Result (ByteQueue channelElementSize) := do
  let q ← if q.bytesUsed = q.maxByteCount ∧ q.isSingleValue = false then q.resize else .ok q
  let q ← q.store data
  if q.isSingleValue then return { q with bytesUsed := q.allocatedElementSize }
  else return { q with
    bytesUsed := q.bytesUsed + q.allocatedElementSize
    writeIndex := q.advance q.writeIndex }

/-- `Read`: the element, or none if the queue is empty. -/
def read (q : ByteQueue channelElementSize) :
    Result (Option (Element channelElementSize) × ByteQueue channelElementSize) := do
  if q.bytesUsed = 0 then return (none, q)
  else
    let element ← q.load
    if q.isSingleValue then return (some element, q)
    else return (some element, { q with
      bytesUsed := q.bytesUsed - q.allocatedElementSize
      readIndex := q.advance q.readIndex })

/-- `size`. -/
def size (q : ByteQueue channelElementSize) : Nat := q.bytesUsed / q.allocatedElementSize

end ByteQueue

end Xls

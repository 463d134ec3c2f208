import Xls.Ir
import Xls.ValueProto
import Xls.Lib.ByteWrites

/-!
# Xls.TypeLayout

The layout of values in the buffers of the JIT (`xls/jit/type_layout.h`, `type_layout.cc`).

A buffer is a function of the offset from its start. Sizes and offsets are natural numbers; the
elements of a layout lie within it.
-/

namespace Xls

/-- `Value`. An array that `ArrayOwned` makes can be empty. -/
inductive OwnedValue where
  | bits (b : Bits)
  | token
  | tuple (elements : List OwnedValue)
  | array (elements : List OwnedValue)

namespace OwnedValue

/-- `IsLeafValue`. -/
def isLeafValue : OwnedValue → Bool
  | .bits _ | .token => true
  | .tuple _ | .array _ => false

/-- The elements of a compound value. -/
def elements : OwnedValue → List OwnedValue
  | .bits _ | .token => []
  | .tuple vs | .array vs => vs

mutual

/-- `ValueConformsToType`, of all elements. -/
def conformsToType : OwnedValue → IrType → Bool
  | .bits b, .bits w => b.width == w
  | .token, .token => true
  | .tuple vs, .tuple ts => conformToTypes vs ts
  | .array vs, .array n t => vs.length == n && conformToType vs t
  | _, _ => false

/-- The elements of a tuple. -/
def conformToTypes : List OwnedValue → List IrType → Bool
  | [], [] => true
  | v :: vs, t :: ts => conformsToType v t && conformToTypes vs ts
  | _, _ => false

/-- The elements of an array. -/
def conformToType : List OwnedValue → IrType → Bool
  | [], _ => true
  | v :: vs, t => conformsToType v t && conformToType vs t

end

mutual

/-- The nodes of a value. -/
def nodeCount : OwnedValue → Nat
  | .bits _ | .token => 1
  | .tuple vs | .array vs => 1 + nodeCounts vs

/-- The nodes of a list of values. -/
def nodeCounts : List OwnedValue → Nat
  | [] => 0
  | v :: vs => nodeCount v + nodeCounts vs

end

theorem nodeCount_elements (v : OwnedValue) (h : v.isLeafValue = false) :
    v.nodeCount = 1 + nodeCounts v.elements := by
  cases v with
  | bits b => cases h
  | token => cases h
  | _ => rw [nodeCount, elements]

end OwnedValue

mutual

/-- `leaf_count`, without a bound; the source counts in an `int64_t`. -/
def IrType.leafCount : IrType → Nat
  | .bits _ => 1
  | .token => 1
  | .tuple ts => leafCounts ts
  | .array n t => n * leafCount t

/-- The loop over the members of a tuple. -/
def IrType.leafCounts : List IrType → Nat
  | [] => 0
  | t :: ts => leafCount t + leafCounts ts

end

/-- `ElementLayout`. -/
structure ElementLayout where
  offset : Nat
  dataSize : Nat
  paddedSize : Nat
  deriving DecidableEq

/-- `TypeLayout`. The constructor checks the number of elements. -/
structure TypeLayout where
  type : IrType
  size : Nat
  elements : List ElementLayout
  length_elements : elements.length = type.leafCount

/-- The bytes of a buffer. -/
abbrev Buffer := Nat → UInt8

namespace Buffer

/-- `memcpy` of bytes to an offset. -/
def memcpy (buffer : Buffer) (offset : Nat) (bytes : List UInt8) : Buffer :=
  (Write.mk offset bytes).apply buffer

/-- `memset` of bytes to zero. -/
def memset (buffer : Buffer) (offset n : Nat) : Buffer :=
  (Write.mk offset (List.replicate n 0)).apply buffer

/-- The bytes from an offset on. -/
def span (buffer : Buffer) (offset n : Nat) : List UInt8 :=
  (List.range n).map fun i => buffer (offset + i)

end Buffer

open KindedValue (byteCount toBytes fromBytes)

/-- `LeafValueToNativeLayout`. -/
def leafValueToNativeLayout (value : OwnedValue) (layout : ElementLayout) (buffer : Buffer) :
    Result Buffer :=
  match value with
  | .bits b =>
    -- `ToBytes` copies nothing to an empty span.
    let buffer :=
      if layout.dataSize = 0 then buffer else buffer.memcpy layout.offset (toBytes b)
    .ok (buffer.memset (layout.offset + layout.dataSize) (layout.paddedSize - layout.dataSize))
  | .token => .ok (buffer.memset 0 layout.paddedSize)
  | .tuple _ | .array _ => .error .check

namespace TypeLayout

/-- The loop of `ValueToNativeLayout`. A frame of the stack has the elements of a compound value
that are left. -/
def enumerate (elements : List ElementLayout) :
    List (List OwnedValue) → Nat → Buffer → Result (Nat × Buffer)
  | [], leafIndex, buffer => .ok (leafIndex, buffer)
  | [] :: stack, leafIndex, buffer => enumerate elements stack leafIndex buffer
  | (value :: frame) :: stack, leafIndex, buffer =>
    if value.isLeafValue then do
      let layout ← derefOption elements[leafIndex]?
      let buffer ← leafValueToNativeLayout value layout buffer
      enumerate elements (frame :: stack) (leafIndex + 1) buffer
    else enumerate elements (value.elements :: frame :: stack) leafIndex buffer
  termination_by stack => ((stack.map OwnedValue.nodeCounts).sum, stack.length)
  decreasing_by
    · exact Prod.Lex.right' _ (by simp [OwnedValue.nodeCounts]) (by simp)
    · refine Prod.Lex.left _ _ ?_
      have hpos : 0 < value.nodeCount := by
        cases value <;> simp [OwnedValue.nodeCount]
      simp [OwnedValue.nodeCounts]
      omega
    · rename_i h
      refine Prod.Lex.left _ _ ?_
      rw [Bool.not_eq_true] at h
      simp [OwnedValue.nodeCounts, OwnedValue.nodeCount_elements value h]
      omega

/-- `ValueToNativeLayout`. -/
def valueToNativeLayout (layout : TypeLayout) (value : OwnedValue) (buffer : Buffer) :
    Result Buffer :=
  if value.isLeafValue then do
    let element ← derefOption layout.elements.head?
    leafValueToNativeLayout value element buffer
  else do
    let (leafIndex, buffer) ← enumerate layout.elements [value.elements] 0 buffer
    checkThat (leafIndex == layout.elements.length)
    return buffer

/-- The loop over the elements of an array. -/
def arrayElements (read : Nat → Result (OwnedValue × Nat)) :
    Nat → Nat → Result (List OwnedValue × Nat)
  | 0, leafIndex => .ok ([], leafIndex)
  | n + 1, leafIndex => do
    let (value, leafIndex) ← read leafIndex
    let (values, leafIndex) ← arrayElements read n leafIndex
    return (value :: values, leafIndex)

mutual

/-- `NativeLayoutToValueInternal`, with the index of the next leaf. -/
def nativeLayoutToValueInternal (elements : List ElementLayout) (buffer : Buffer) :
    IrType → Nat → Result (OwnedValue × Nat)
  | .bits bitCount, leafIndex => do
    let layout ← derefOption elements[leafIndex]?
    let b ← fromBytes (buffer.span layout.offset (byteCount bitCount)) bitCount
    return (.bits b, leafIndex + 1)
  | .token, leafIndex => .ok (.token, leafIndex + 1)
  | .tuple types, leafIndex => do
    let (values, leafIndex) ← tupleElements elements buffer types leafIndex
    return (.tuple values, leafIndex)
  | .array size type, leafIndex => do
    let (values, leafIndex) ←
      arrayElements (fun leafIndex => nativeLayoutToValueInternal elements buffer type leafIndex)
        size leafIndex
    return (.array values, leafIndex)

/-- The loop over the elements of a tuple. -/
def tupleElements (elements : List ElementLayout) (buffer : Buffer) :
    List IrType → Nat → Result (List OwnedValue × Nat)
  | [], leafIndex => .ok ([], leafIndex)
  | type :: types, leafIndex => do
    let (value, leafIndex) ← nativeLayoutToValueInternal elements buffer type leafIndex
    let (values, leafIndex) ← tupleElements elements buffer types leafIndex
    return (value :: values, leafIndex)

end

/-- `NativeLayoutToValue`. -/
def nativeLayoutToValue (layout : TypeLayout) (buffer : Buffer) : Result OwnedValue := do
  let (value, _) ← nativeLayoutToValueInternal layout.elements buffer layout.type 0
  return value

end TypeLayout

end Xls

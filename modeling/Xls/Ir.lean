import Xls.Bits
import Xls.Status
import Xls.Lib.LeafTree

/-!
# Xls.Ir

Types, values, nodes and functions of the intermediate representation
(`xls/ir/type.h`, `xls/ir/value.h`, `xls/ir/nodes.h`, `xls/ir/function.h`).

A value is a tree of bit vectors. Tuples and arrays are both inner nodes; which of
the two a node is follows from the type. A token is a leaf of width zero, as in a
`LeafTypeTree`. The nodes of a function are listed in the order of `TopoSort`, so
an operand always stands before its users; that is a field of `Function`.
-/

namespace Xls

open LeafTree List

/-! ### Types -/

/-- `Type`. -/
inductive IrType where
  | bits (width : Nat)
  | token
  | tuple (elements : List IrType)
  | array (size : Nat) (element : IrType)

namespace IrType

mutual
/-- Types are compared by structure. -/
def decEq : (s t : IrType) → Decidable (s = t)
  | .bits v, .bits w => decidable_of_iff (v = w) ⟨congrArg _, IrType.bits.inj⟩
  | .token, .token => isTrue rfl
  | .tuple ss, .tuple ts =>
    match decEqList ss ts with
    | isTrue h => isTrue (congrArg _ h)
    | isFalse h => isFalse fun he => h (IrType.tuple.inj he)
  | .array m s, .array n t =>
    match decEq s t with
    | isTrue h =>
      decidable_of_iff (m = n) ⟨fun hm => hm ▸ h ▸ rfl, fun he => (IrType.array.inj he).1⟩
    | isFalse h => isFalse fun he => h (IrType.array.inj he).2
  | .bits _, .token | .bits _, .tuple _ | .bits _, .array _ _ => isFalse nofun
  | .token, .bits _ | .token, .tuple _ | .token, .array _ _ => isFalse nofun
  | .tuple _, .bits _ | .tuple _, .token | .tuple _, .array _ _ => isFalse nofun
  | .array _ _, .bits _ | .array _ _, .token | .array _ _, .tuple _ => isFalse nofun
def decEqList : (ss ts : List IrType) → Decidable (ss = ts)
  | [], [] => isTrue rfl
  | [], _ :: _ => isFalse nofun
  | _ :: _, [] => isFalse nofun
  | s :: ss, t :: ts =>
    match decEq s t, decEqList ss ts with
    | isTrue h, isTrue hs => isTrue (h ▸ hs ▸ rfl)
    | isFalse h, _ => isFalse fun he => h (cons.inj he).1
    | _, isFalse hs => isFalse fun he => hs (cons.inj he).2
end

instance : DecidableEq IrType := decEq

mutual
/-- The widths of the leaves, in the shape of a `LeafTypeTree` of the type. -/
def shape : IrType → LeafTree Nat
  | .bits w => .leaf w
  | .token => .leaf 0
  | .tuple ts => .node (shapeList ts)
  | .array n t => .node (replicate n (shape t))
def shapeList : List IrType → List (LeafTree Nat)
  | [] => []
  | t :: ts => shape t :: shapeList ts
end

mutual
/-- `ToString`. -/
def toString : IrType → String
  | .bits w => s!"bits[{w}]"
  | .token => "token"
  | .tuple ts => "(" ++ ", ".intercalate (toStrings ts) ++ ")"
  | .array n t => s!"{toString t}[{n}]"
def toStrings : List IrType → List String
  | [] => []
  | t :: ts => toString t :: toStrings ts
end

/-- `IsBits`. -/
def isBits : IrType → Bool
  | .bits _ => true
  | _ => false

/-- The width of a bits type; `BitCountOrDie` aborts on the others. -/
def bitCountOrDie : IrType → Result Nat
  | .bits w => .ok w
  | _ => .error .check

/-- The size of an array type; `AsArrayOrDie` aborts on the others. -/
def arraySizeOrDie : IrType → Result Nat
  | .array n _ => .ok n
  | _ => .error .check

/-- `GetFlatBitCount`. -/
def flatBitCount (t : IrType) : Nat := t.shape.leaves.sum

theorem eq_bits_of_isBits {t : IrType} (h : t.isBits = true) : ∃ w, t = .bits w := by
  cases t with
  | bits w => exact ⟨w, rfl⟩
  | _ => cases h

end IrType

/-! ### Values -/

/-- `Value`. -/
abbrev Value := LeafTree Bits

namespace Value

/-- `Value::Token()`. -/
def token : Value := .leaf (Bits.zero 0)

/-- `ValueConformsToType`. -/
def Conforms (v : Value) (t : IrType) : Prop :=
  Rel (fun (b : Bits) (w : Nat) => b.width = w) v t.shape

instance (v : Value) (t : IrType) : Decidable (Conforms v t) :=
  inferInstanceAs (Decidable (Rel _ _ _))

/-- `ZeroOfType`. -/
def zeroOfType (t : IrType) : Value := t.shape.map Bits.zero

/-- `bits()`; the value must be a leaf. -/
def bits (v : Value) : Result Bits := derefOption v.leaf?

/-- `Value::Array`; an empty array value cannot be built. -/
def array (elements : List Value) : Result Value :=
  match elements with
  | [] => .error (.status "Empty array Values are not supported.")
  | _ :: _ => .ok (.node elements)

theorem conforms_bits {v : Value} {w : Nat} (h : Conforms v (.bits w)) :
    ∃ b, v = .leaf b ∧ b.width = w := by
  unfold Conforms at h
  rw [IrType.shape] at h
  exact rel_leaf_right h

@[simp] theorem conforms_leaf_bits {b : Bits} {w : Nat} :
    Conforms (.leaf b) (.bits w) ↔ b.width = w := by
  unfold Conforms
  rw [IrType.shape, rel_leaf]

end Value

/-! ### Nodes -/

inductive BinOp
  | add | sub | udiv | sdiv | umod | smod | shll | shrl | shra
  deriving DecidableEq

inductive ArithOp
  | smul | umul
  deriving DecidableEq

inductive PartialProductOp
  | smulp | umulp
  deriving DecidableEq

inductive UnOp
  | identity | neg | not | reverse
  deriving DecidableEq

inductive NaryOp
  | and | nand | nor | or | xor
  deriving DecidableEq

inductive CompareOp
  | eq | ne | sge | sgt | sle | slt | uge | ugt | ule | ult
  deriving DecidableEq

inductive BitwiseReductionOp
  | andReduce | orReduce | xorReduce
  deriving DecidableEq

inductive ExtendOp
  | signExt | zeroExt
  deriving DecidableEq

/-- The operation of a node with its attributes, for the operations that can occur
in a function. A function that is called is given by its number. -/
inductive NodeKind
  | param (index : Nat)
  | literal (value : Value)
  | bin (op : BinOp)
  | arith (op : ArithOp)
  | partialProduct (op : PartialProductOp) (width : Nat)
  | un (op : UnOp)
  | nary (op : NaryOp)
  | compare (op : CompareOp)
  | reduce (op : BitwiseReductionOp)
  | extend (op : ExtendOp) (newBitCount : Nat)
  | afterAll
  | minDelay
  | array
  | arrayConcat
  | arrayIndex
  | arraySlice (width : Nat)
  | arrayUpdate
  | assert
  | bitSlice (start width : Nat)
  | bitSliceUpdate
  | concat
  | countedFor (tripCount : Nat) (stride : Nat) (body : Nat)
  | cover
  | decode (width : Nat)
  | dynamicBitSlice (width : Nat)
  | dynamicCountedFor (body : Nat)
  | encode
  | gate
  | invoke (toApply : Nat)
  | map (toApply : Nat)
  | oneHot (priority : LsbOrMsb)
  | oneHotSel
  | prioritySel
  | sel (hasDefault : Bool)
  | trace
  | tuple
  | tupleIndex (index : Nat)
  deriving DecidableEq

/-- `Node`; the operands are positions in the node list. -/
structure Node where
  kind : NodeKind
  operands : List Nat
  type : IrType
  deriving DecidableEq

/-! ### Verification -/

/-- `GetIndexedElementType`. -/
def IrType.indexedElementType : IrType → Nat → Option IrType
  | t, 0 => some t
  | .array _ t, n + 1 => indexedElementType t n
  | _, _ + 1 => none

/-- The total width of bits types. -/
def IrType.totalBits : List IrType → Option Nat
  | [] => some 0
  | .bits w :: ts => (totalBits ts).map (w + ·)
  | _ :: _ => none

/-- The sizes of arrays of one element type, summed up. -/
def IrType.totalSize (element : IrType) : List IrType → Option Nat
  | [] => some 0
  | .array n t :: ts => if t = element then (totalSize element ts).map (n + ·) else none
  | _ :: _ => none

/-- `IsPowerOfTwo`. -/
def isPowerOfTwo (n : Nat) : Bool := n != 0 && (n &&& (n - 1)) == 0

/-- The rules of `HandleSel` for the width of the selector and the default. -/
def verifySelector (width cases : Nat) (hasDefault : Bool) : Bool :=
  let minimum := Bits.minBitCountUnsigned (cases - 1)
  minimum ≤ width &&
    !(width == minimum && isPowerOfTwo cases && hasDefault) &&
    !((minimum < width || (width == minimum && !isPowerOfTwo cases)) && !hasDefault)

def BinOp.isShift : BinOp → Bool
  | .shll | .shrl | .shra => true
  | _ => false

/-- `VerifyNode`, on the types of the operands and the type of the node, which the
node constructors compute from the attributes. Checks that only concern tokens
inside a type and the signature of a called function are left out, and the cases of
a `one_hot_sel` or `priority_sel` must have the type of the node. -/
def verifyNode (params : List IrType) (kind : NodeKind) (operands : List IrType) (type : IrType) :
    Bool :=
  match kind, operands with
  | .param index, [] => params[index]? == some type
  | .literal value, [] => decide (value.Conforms type)
  | .bin op, [a, b] => type.isBits && a == type && if op.isShift then b.isBits else b == type
  | .arith _, [a, b] => a.isBits && b.isBits && type.isBits
  | .partialProduct _ w, [a, b] => a.isBits && b.isBits && type == .tuple [.bits w, .bits w]
  | .un op, [a] => a == type && (op == .identity || type.isBits)
  | .nary _, a :: as => type.isBits && (a :: as).all (· == type)
  | .compare _, [a, b] => a == b && type == .bits 1
  | .reduce _, [a] => a.isBits && type == .bits 1
  | .extend op n, [.bits w] => w ≤ n && (op == .zeroExt || 0 < w) && type == .bits n
  | .afterAll, as => as.all (· == .token) && type == .token
  | .minDelay, [a] => a == .token && type == .token
  | .array, as =>
    match type with
    | .array n t => as.length == n && as.all (· == t)
    | _ => false
  | .arrayConcat, a :: as =>
    match type with
    | .array n t => IrType.totalSize t (a :: as) == some n
    | _ => false
  | .arrayIndex, a :: indices =>
    indices.all IrType.isBits && a.indexedElementType indices.length == some type
  | .arraySlice w, [.array n t, start] =>
    start.isBits && type == .array w t && 0 < n && 0 < w
  | .arrayUpdate, a :: value :: indices =>
    a == type && indices.all IrType.isBits && a.indexedElementType indices.length == some value
  | .assert, [a, b] => a == .token && b == .bits 1 && type == .token
  | .bitSlice start w, [.bits v] => start + w ≤ v && type == .bits w
  | .bitSliceUpdate, [a, start, value] => a.isBits && start.isBits && value.isBits && type == a
  | .concat, as =>
    match IrType.totalBits as with
    | some w => type == .bits w
    | none => false
  | .countedFor _ _ _, a :: _ => a == type
  | .cover, [a, b] => a == .token && b == .bits 1 && type == .token
  | .decode w, [.bits v] => w ≤ 2 ^ v && type == .bits w
  | .dynamicBitSlice w, [.bits v, start] => start.isBits && w ≤ v && type == .bits w
  | .dynamicCountedFor _, a :: trip :: stride :: _ => a == type && trip.isBits && stride.isBits
  | .encode, [.bits v] => type == .bits (Bits.ceilOfLog2 v)
  | .gate, [condition, data] => condition == .bits 1 && data == type
  | .invoke _, _ => true
  | .map _, [_] => true
  | .oneHot _, [.bits v] => type == .bits (v + 1)
  | .oneHotSel, .bits w :: cases => cases.length == w && 0 < w && cases.all (· == type)
  | .prioritySel, .bits w :: cases => cases.length == w && 0 < w && cases.all (· == type)
  | .sel hasDefault, .bits w :: cases =>
    let count := if hasDefault then cases.length - 1 else cases.length
    0 < cases.length && 0 < count && verifySelector w count hasDefault && cases.all (· == type)
  | .trace, a :: b :: as => a == .token && b == .bits 1 && as.all IrType.isBits && type == .token
  | .tuple, as => type == .tuple as
  | .tupleIndex i, [.tuple ts] => ts[i]? == some type
  | _, _ => false

/-- The types of operands that stand before the node. -/
def operandTypes (before : List Node) (operands : List Nat) : Option (List IrType) :=
  collect (fun o => before[o]?.map Node.type) operands

/-- Every node comes after its operands and passes the verifier. -/
def verifyFrom (params : List IrType) : List Node → List Node → Bool
  | _, [] => true
  | before, n :: ns =>
    (match operandTypes before n.operands with
      | some types => verifyNode params n.kind types n.type
      | none => false) &&
      verifyFrom params (before ++ [n]) ns

/-- `Function`, with its nodes in topological order and verified. -/
structure Function where
  params : List IrType
  nodes : List Node
  returnValue : Nat
  verified : verifyFrom params [] nodes = true
  returnValue_lt : returnValue < nodes.length

/-- A binary operation has the type of its left operand, which is a bits type. -/
theorem verifyNode_bin (params : List IrType) (op : BinOp) (a b type : IrType) :
    verifyNode params (.bin op) [a, b] type =
      (type.isBits && a == type && if op.isShift then b.isBits else b == type) := by
  simp only [verifyNode]

variable {before rest : List Node}

/-- Each node of a verified list is verified over the nodes before it. -/
theorem verifyFrom_append {params : List IrType} {ns : List Node} {n : Node}
    (h : verifyFrom params before (ns ++ n :: rest) = true) :
    ∃ types, operandTypes (before ++ ns) n.operands = some types ∧
      verifyNode params n.kind types n.type = true := by
  induction ns generalizing before with
  | nil =>
    rw [nil_append, verifyFrom, Bool.and_eq_true] at h
    rw [append_nil]
    cases ht : operandTypes before n.operands with
    | none => simp [ht] at h
    | some types =>
      rw [ht] at h
      exact ⟨types, rfl, h.1⟩
  | cons m ns ih =>
    rw [cons_append, verifyFrom, Bool.and_eq_true] at h
    have hih := ih h.2
    rwa [append_assoc, singleton_append] at hih

/-- A node of a function passes the verifier on the nodes before it. -/
theorem Function.verified_at (f : Function) {n : Node} (h : f.nodes = before ++ n :: rest) :
    ∃ types, operandTypes before n.operands = some types ∧
      verifyNode f.params n.kind types n.type = true := by
  have hv := f.verified
  rw [h] at hv
  exact verifyFrom_append hv

end Xls

import Xls.Ir

/-!
# Xls.Interpreter

The interpreter (`xls/interpreter/ir_interpreter.cc`,
`xls/interpreter/function_interpreter.cc`). It is the meaning of the operations
that every analysis is measured against.

Nodes are evaluated in topological order; the value of each must conform to the
type of the node. Functions that `invoke`, `map` and the loops call are given by an
environment; `Package` closes the definition for a list of functions in which a
function only calls earlier ones.
-/

namespace Xls

open List

/-- What a node can call: the functions of the package, by number. -/
structure Env where
  params : Nat → List IrType
  call : Nat → List Value → Result Value

namespace Bits

/-- `BitsToBoundedUint64`. -/
def bounded (b : Bits) (limit : Nat) : Nat := min b.val limit

/-- `MulpOffsetForSimulation`. -/
def mulpOffset (resultSize shiftSize : Nat) : Bits :=
  let lsbs := resultSize - 2
  let msbs := resultSize - lsbs
  let offset := (allOnes lsbs).shiftRightLogical (min (lsbs - 1) shiftSize)
  if 0 < msbs then concat [ofNat msbs (2 ^ (msbs - 1) - 1), offset] else offset

/-- `BitSliceUpdate`. -/
def bitSliceUpdate (a : Bits) (start : Nat) (value : Bits) : Bits :=
  if a.width ≤ start then a
  else
    let lsbSlice := a.slice 0 start
    let updateSlice := value.slice 0 (min value.width (a.width - start))
    let msbStart := min a.width (start + value.width)
    let msbSlice := a.slice msbStart (a.width - msbStart)
    concat [msbSlice, updateSlice, lsbSlice]

/-- The loop of `HandleEncode`: the bitwise or of the indexes of the set bits. -/
def encode (a : Bits) (w : Nat) : Bits :=
  a.toBools.zipIdx.foldl (fun acc p => if p.1 then acc.or (ofNat w p.2) else acc) (zero w)

end Bits

namespace Interpreter

/-! ### Operations on bits -/

def binOp (op : BinOp) (a b : Bits) : Result Bits :=
  match op with
  | .add => do
    checkThat (a.width == b.width)
    return a.add b
  | .sub => do
    checkThat (a.width == b.width)
    return a.sub b
  | .udiv => .ok (a.udiv b)
  | .sdiv => .ok (a.sdiv b)
  | .umod => .ok (a.umod b)
  | .smod => .ok (a.smod b)
  | .shll => .ok (a.shiftLeftLogical (b.bounded a.width))
  | .shrl => .ok (a.shiftRightLogical (b.bounded a.width))
  | .shra => .ok (a.shiftRightArith (b.bounded a.width))

/-- The product cut or extended to the width of the node. -/
def arithOp (op : ArithOp) (width : Nat) (a b : Bits) : Bits :=
  match op with
  | .smul =>
    let product := a.smul b
    if width < product.width then product.slice 0 width
    else if product.width < width then product.signExtend width
    else product
  | .umul =>
    let product := a.umul b
    if width < product.width then product.slice 0 width
    else if product.width < width then product.zeroExtend width
    else product

/-- The two partial products: a fixed offset and the rest. -/
def partialProductOp (op : PartialProductOp) (width : Nat) (a b : Bits) : Value :=
  let product := arithOp (match op with | .smulp => .smul | .umulp => .umul) width a b
  let offset := Bits.mulpOffset width 2
  .node [.leaf offset, .leaf (product.sub offset)]

/-- A bitwise operation on operands of one width. -/
def naryFold (f : Bits → Bits → Bits) : List Bits → Result Bits
  | [] => .error .check
  | b :: bs =>
    bs.foldlM (fun acc x => do
      checkThat (acc.width == x.width)
      return f acc x) b

def naryOp (op : NaryOp) (operands : List Bits) : Result Bits :=
  match op with
  | .and => naryFold Bits.and operands
  | .or => naryFold Bits.or operands
  | .xor => naryFold Bits.xor operands
  | .nand => do
    let r ← naryFold Bits.and operands
    return r.not
  | .nor => do
    let r ← naryFold Bits.or operands
    return r.not

/-- The ordered comparisons. -/
def compareBits (op : CompareOp) (a b : Bits) : Bool :=
  match op with
  | .eq => a == b
  | .ne => !(a == b)
  | .sge => !a.slt b
  | .sgt => !a.sle b
  | .sle => a.sle b
  | .slt => a.slt b
  | .uge => b.ule a
  | .ugt => b.ult a
  | .ule => a.ule b
  | .ult => a.ult b

/-- Equality compares whole values, the ordered comparisons need bits. -/
def compareOp (op : CompareOp) (a b : Value) : Result Bool :=
  match op with
  | .eq => .ok (decide (a = b))
  | .ne => .ok (!decide (a = b))
  | _ => do
    let x ← a.bits
    let y ← b.bits
    return compareBits op x y

def reduceOp (op : BitwiseReductionOp) (a : Bits) : Bits :=
  match op with
  | .andReduce => a.andReduce
  | .orReduce => a.orReduce
  | .xorReduce => a.xorReduce

def extendOp (op : ExtendOp) (newBitCount : Nat) (a : Bits) : Result Bits := do
  checkThat (decide (a.width ≤ newBitCount))
  match op with
  | .signExt => return a.signExtend newBitCount
  | .zeroExt => return a.zeroExtend newBitCount

/-- The bit that `one_hot` sets in a result of the given width. -/
def oneHotOp (priority : LsbOrMsb) (width : Nat) (a : Bits) : Result Bits := do
  checkThat (decide (1 < 2 ^ width))
  let skipped := BoolList.firstSet (match priority with
    | .lsb => a.toBools
    | .msb => a.toBools.reverse)
  let index := if skipped < a.width then
    (match priority with | .lsb => skipped | .msb => a.width - skipped - 1) else width - 1
  return (Bits.ofNat width 1).shiftLeftLogical index

def dynamicBitSlice (width : Nat) (a start : Bits) : Bits :=
  if a.width ≤ start.val then Bits.zero width
  else (a.shiftRightLogical start.val).slice 0 width

/-! ### Operations on aggregates -/

/-- One step of an array index; an index past the end reads the last element. -/
def arrayElement (array : Value) (index : Bits) : Result Value :=
  derefOption array.children[index.bounded (array.children.length - 1)]?

def arrayIndex (array : Value) (indices : List Bits) : Result Value :=
  indices.foldlM arrayElement array

def arraySlice (width : Nat) (array : Value) (start : Bits) : Result Value := do
  let elements := array.children
  let last ← derefOption elements.getLast?
  let first := start.bounded (elements.length - 1)
  Value.array ((range width).map fun i => elements.getD (first + i) last)

/-- `SetArrayElement`; an index past the end changes nothing. -/
def setArrayElement (value : Value) : List Bits → List Value → Result (List Value)
  | [], _ => .error (.status "XLS_RET_CHECK failure: !indices.empty()")
  | index :: indices, elements =>
    match elements[index.bounded elements.length]? with
    | none => .ok elements
    | some element =>
      match indices with
      | [] => .ok (elements.set (index.bounded elements.length) value)
      | _ :: _ => do
        let subelements ← setArrayElement value indices element.children
        let arrayElement ← Value.array subelements
        return elements.set (index.bounded elements.length) arrayElement

def arrayUpdate (array value : Value) (indices : List Bits) : Result Value :=
  match indices with
  | [] => .ok value
  | _ :: _ => do
    let elements ← setArrayElement value indices array.children
    Value.array elements

/-- `DeepOr` of the activated inputs. -/
def deepOr (type : IrType) (inputs : List Value) : Result Value :=
  LeafTree.zipAll (fun _ => .error .check) (fun width bits =>
    bits.foldlM (fun acc x => do
      checkThat (acc.width == x.width)
      return Bits.or acc x) (Bits.zero width)) type.shape inputs

/-- The cases whose selector bit is set. -/
def activated (selector : Bits) (cases : List Value) : List Value :=
  ((selector.toBools.zip cases).filter Prod.fst).map Prod.snd

def oneHotSel (type : IrType) (selector : Bits) (cases : List Value) : Result Value := do
  -- `get_case(i)` for a set bit beyond the cases
  checkThat (decide (selector.toBools.drop cases.length = replicate
    (selector.width - cases.length) false))
  deepOr type (activated selector cases)

/-- The case of the lowest set bit, or zero. -/
def prioritySel (type : IrType) (selector : Bits) (cases : List Value) : Result Value :=
  if BoolList.firstSet selector.toBools < selector.width then
    derefOption cases[BoolList.firstSet selector.toBools]?
  else .ok (Value.zeroOfType type)

def sel (selector : Bits) (cases : List Value) (default : Option Value) : Result Value := do
  checkThat (decide (0 < cases.length ∧ cases.length - 1 < 2 ^ selector.width))
  if cases.length - 1 < selector.val then
    match default with
    | some v => return v
    | none => .error (.status "XLS_RET_CHECK failure: sel->default_value().has_value()")
  else derefOption cases[selector.val]?

def gate (type : IrType) (condition : Bits) (data : Value) : Value :=
  if condition.isOne then data else Value.zeroOfType type

/-! ### Calls -/

/-- The iterations of a `counted_for` that remain, from an induction value on. -/
def countedForLoop (env : Env) (body width stride : Nat) (invariants : List Value) :
    Nat → Nat → Value → Result Value
  | 0, _, state => .ok state
  | trips + 1, iv, state => do
    checkThat (decide (iv < 2 ^ width))
    let next ← env.call body (.leaf (Bits.ofNat width iv) :: state :: invariants)
    countedForLoop env body width stride invariants trips (iv + stride) next

/-- The loop of `dynamic_counted_for`. The index has wrapped around after
`2 ^ width` rounds, so a loop that needs more never ends. -/
def dynamicCountedForLoop (env : Env) (body : Nat) (limit stride : Bits)
    (invariants : List Value) : Nat → Bits → Value → Result Value
  | 0, _, _ => .error .check
  | fuel + 1, index, state =>
    if index.toInt = limit.toInt then .ok state
    else do
      let next ← env.call body (.leaf index :: state :: invariants)
      dynamicCountedForLoop env body limit stride invariants fuel (index.add stride) next

/-- The width of the induction variable of a loop body. -/
def indexWidth (env : Env) (body : Nat) : Result Nat :=
  match env.params body with
  | t :: _ => t.bitCountOrDie
  | [] => .error .check

/-- The results of a call on each element. -/
def mapCalls (env : Env) (toApply : Nat) : List Value → Result (List Value)
  | [] => .ok []
  | v :: vs => do
    let r ← env.call toApply [v]
    let rs ← mapCalls env toApply vs
    return r :: rs

/-- `ResolveAsBitsVector`. -/
def bitsVector : List Value → Result (List Bits)
  | [] => .ok []
  | v :: vs => do
    let b ← v.bits
    let bs ← bitsVector vs
    return b :: bs

theorem bitsVector_leaves (xs : List Bits) : bitsVector (xs.map LeafTree.leaf) = .ok xs := by
  induction xs with
  | nil => rfl
  | cons x xs ih =>
    rw [map_cons, bitsVector, ih]
    rfl

/-! ### Nodes and functions -/

/-- The value a handler computes, before `SetValueResult` checks it. -/
def evalNode (env : Env) (args : List Value) (kind : NodeKind) (type : IrType)
    (operands : List Value) : Result Value :=
  match kind, operands with
  | .param index, _ =>
    match args[index]? with
    | some v => .ok v
    | none => .error (.status "Parameter does not exist in args")
  | .literal value, _ => .ok value
  | .bin op, [a, b] => do
    let x ← a.bits
    let y ← b.bits
    let r ← binOp op x y
    return .leaf r
  | .arith op, [a, b] => do
    let x ← a.bits
    let y ← b.bits
    let width ← type.bitCountOrDie
    return .leaf (arithOp op width x y)
  | .partialProduct op width, [a, b] => do
    let x ← a.bits
    let y ← b.bits
    return partialProductOp op width x y
  | .un .identity, [a] => .ok a
  | .un .neg, [a] => do
    let x ← a.bits
    return .leaf x.negate
  | .un .not, [a] => do
    let x ← a.bits
    return .leaf x.not
  | .un .reverse, [a] => do
    let x ← a.bits
    return .leaf x.reverse
  | .nary op, as => do
    let xs ← bitsVector as
    let r ← naryOp op xs
    return .leaf r
  | .compare op, [a, b] => do
    let r ← compareOp op a b
    let width ← type.bitCountOrDie
    return .leaf (Bits.ofNat width r.toNat)
  | .reduce op, [a] => do
    let x ← a.bits
    return .leaf (reduceOp op x)
  | .extend op newBitCount, [a] => do
    let x ← a.bits
    let r ← extendOp op newBitCount x
    return .leaf r
  | .afterAll, _ | .minDelay, _ | .assert, _ | .cover, _ | .trace, _ => .ok Value.token
  | .array, as => Value.array as
  | .arrayConcat, as => Value.array (as.flatMap LeafTree.children)
  | .arrayIndex, a :: indices => do
    let is ← bitsVector indices
    arrayIndex a is
  | .arraySlice width, [a, start] => do
    let s ← start.bits
    arraySlice width a s
  | .arrayUpdate, a :: value :: indices => do
    let is ← bitsVector indices
    arrayUpdate a value is
  | .bitSlice start width, [a] => do
    let x ← a.bits
    checkThat (decide (start + width ≤ x.width))
    return .leaf (x.slice start width)
  | .bitSliceUpdate, [a, start, value] => do
    let x ← a.bits
    let s ← start.bits
    let v ← value.bits
    return .leaf (x.bitSliceUpdate s.val v)
  | .concat, as => do
    let xs ← bitsVector as
    return .leaf (Bits.concat xs)
  | .countedFor tripCount stride body, state :: invariants => do
    let width ← indexWidth env body
    countedForLoop env body width stride invariants tripCount 0 state
  | .decode _, [a] => do
    let x ← a.bits
    let width ← type.bitCountOrDie
    return .leaf (x.decode width)
  | .dynamicBitSlice width, [a, start] => do
    let x ← a.bits
    let s ← start.bits
    return .leaf (dynamicBitSlice width x s)
  | .dynamicCountedFor body, state :: trip :: stride :: invariants => do
    let width ← indexWidth env body
    let t ← trip.bits
    let s ← stride.bits
    checkThat (decide (s.width ≤ width))
    let limit := (t.zeroExtend (t.width + 1)).smul s
    dynamicCountedForLoop env body limit (s.signExtend width) invariants (2 ^ width + 1)
      (Bits.zero width) state
  | .encode, [a] => do
    let x ← a.bits
    let width ← type.bitCountOrDie
    return .leaf (x.encode width)
  | .gate, [condition, data] => do
    let c ← condition.bits
    return gate type c data
  | .invoke toApply, as => env.call toApply as
  | .map toApply, [a] => do
    let rs ← mapCalls env toApply a.children
    Value.array rs
  | .oneHot priority, [a] => do
    let x ← a.bits
    let width ← type.bitCountOrDie
    let r ← oneHotOp priority width x
    return .leaf r
  | .oneHotSel, selector :: cases => do
    let s ← selector.bits
    oneHotSel type s cases
  | .prioritySel, selector :: cases => do
    let s ← selector.bits
    prioritySel type s cases
  | .sel hasDefault, selector :: cases => do
    let s ← selector.bits
    if hasDefault then sel s cases.dropLast cases.getLast?
    else sel s cases none
  | .tuple, as => .ok (.node as)
  | .tupleIndex index, [a] => derefOption a.children[index]?
  | _, _ => .error .check

/-- `InterpretNode`; the value must conform to the type of the node. -/
def interpretNode (env : Env) (args : List Value) (n : Node) (operands : List Value) :
    Result Value := do
  let v ← evalNode env args n.kind n.type operands
  if v.Conforms n.type then return v
  else .error (.status "Expected value to match type of node")

/-- Visit the nodes in order, given the values of those before. -/
def visit (env : Env) (args : List Value) : List Value → List Node → Result (List Value)
  | values, [] => .ok values
  | values, n :: ns => do
    let operands ← derefOption (LeafTree.collect (fun o => values[o]?) n.operands)
    let v ← interpretNode env args n operands
    visit env args (values ++ [v]) ns

/-- The values of all nodes in a run on the arguments. -/
def run (env : Env) (f : Function) (args : List Value) : Result (List Value) :=
  if args.length ≠ f.params.length then
    .error (.status "Function called with a wrong number of arguments")
  else if ¬Forall₂ Value.Conforms args f.params then
    .error (.status "Got argument which is not of the type of its parameter")
  else visit env args [] f.nodes

/-- `InterpretFunction`. -/
def interpretFunction (env : Env) (f : Function) (args : List Value) : Result Value := do
  let values ← run env f args
  derefOption values[f.returnValue]?

/-- The environment of a package whose functions are listed from the last one to
the first and only call earlier ones. -/
def packageEnv : List Function → Env
  | [] => ⟨fun _ => [], fun _ _ => .error .check⟩
  | f :: earlier =>
    let env := packageEnv earlier
    { params := fun k => if k = earlier.length then f.params else env.params k
      call := fun k args =>
        if k = earlier.length then interpretFunction env f args else env.call k args }

/-! ### Runs -/

variable {args vals : List Value} {env : Env} {vals' : List Value}

/-- The values of a run conform to the types of the nodes. -/
theorem visit_conforms {before ns : List Node}
    (h : Forall₂ (fun n v => Value.Conforms v n.type) before vals)
    (hv : visit env args vals ns = .ok vals') :
    Forall₂ (fun n v => Value.Conforms v n.type) (before ++ ns) vals' := by
  induction ns generalizing before vals with
  | nil =>
    cases hv
    rwa [append_nil]
  | cons n ns ih =>
    obtain ⟨operands, -, hv⟩ := Result.bind_eq_ok.1 hv
    obtain ⟨v, hnv, hv⟩ := Result.bind_eq_ok.1 hv
    obtain ⟨v', -, hconf⟩ := Result.bind_eq_ok.1 hnv
    split at hconf
    · rename_i hvn
      cases hconf
      have hrest := ih (rel_append h (Forall₂.cons hvn Forall₂.nil)) hv
      rwa [append_assoc, singleton_append] at hrest
    · cases hconf

/-- A visit keeps the values that were there. -/
theorem visit_prefix {ns : List Node} (hv : visit env args vals ns = .ok vals') :
    ∃ rest, vals' = vals ++ rest := by
  induction ns generalizing vals with
  | nil =>
    cases hv
    exact ⟨[], (append_nil _).symm⟩
  | cons n ns ih =>
    obtain ⟨operands, -, hv⟩ := Result.bind_eq_ok.1 hv
    obtain ⟨v, -, hv⟩ := Result.bind_eq_ok.1 hv
    obtain ⟨rest, rfl⟩ := ih hv
    exact ⟨v :: rest, by rw [append_assoc, singleton_append]⟩

theorem visit_of_run {f : Function} (h : run env f args = .ok vals) :
    visit env args [] f.nodes = .ok vals := by
  unfold run at h
  split at h
  · cases h
  · split at h
    · cases h
    · exact h

end Interpreter

end Xls

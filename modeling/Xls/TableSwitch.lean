import Xls.StatelessQueryEngine

/-!
# Xls.TableSwitch

Chains of selects on one index become a lookup in an array
(`xls/passes/table_switch_pass.cc`). A link of a chain picks a literal where the index
equals a key, and the next link otherwise; the first link with a key shadows the later ones.
-/

namespace Xls.TableSwitch

open Graph (Build makeNode replaceUsesWith)
open OneBitMux (Select asSelect retCheck)
open StatelessQueryEngine (knownValueAsBits)

/-! ### Links -/

/-- `Uint64Comparison`. -/
structure Uint64Comparison where
  index : Nat
  key : Nat
  comparisonOp : CompareOp

/-- `to_uint64_constant`. -/
def toUint64Constant (g : Graph) (id : Nat) : Option Nat := do
  let constant ← knownValueAsBits g id
  if BitsOps.fitsInNBitsUnsigned constant 64 then (BitsOps.toUint64 constant).toOption else none

/-- `MatchCompareEqAgainstUint64`. -/
def matchCompareEqAgainstUint64 (g : Graph) (id : Nat) : Option Uint64Comparison := do
  let n ← g.nodes[id]?
  match n.kind, n.operands with
  | .compare op, [lhs, rhs] =>
    if op ≠ .eq ∧ op ≠ .ne then none
    else
      -- the constant may be on either side
      match toUint64Constant g lhs with
      | some constant => some ⟨rhs, constant, op⟩
      | none =>
        match toUint64Constant g rhs with
        | some constant => some ⟨lhs, constant, op⟩
        | none => none
  | _, _ => none

/-- `Link`. -/
structure Link where
  node : Nat
  index : Nat
  key : Nat
  value : Value
  next : Nat

/-- `IsBinarySelect`. -/
def isBinarySelect (sel : Select) : Bool := sel.cases.length == 2 && sel.defaultValue.isNone

/-- The value of a literal. -/
def literalValue (g : Graph) (id : Nat) : Option Value := do
  let n ← g.nodes[id]?
  match n.kind with
  | .literal value => some value
  | _ => none

/-- `MatchLink`. -/
def matchLink (g : Graph) (id : Nat) (index : Option Nat) : Option Link := do
  let n ← g.nodes[id]?
  let sel ← asSelect n
  if !isBinarySelect sel then none
  else
    let comparison ← matchCompareEqAgainstUint64 g sel.selector
    let case0 ← sel.cases[0]?
    let case1 ← sel.cases[1]?
    -- on `ne` the cases trade places
    let next := if comparison.comparisonOp = .eq then case0 else case1
    let valueNode := if comparison.comparisonOp = .eq then case1 else case0
    let value ← literalValue g valueNode
    -- every link of a chain compares the same index
    if index.all (· == comparison.index) then
      some ⟨id, comparison.index, comparison.key, value, next⟩
    else none

/-! ### The table -/

/-- The keys seen so far with their values, and the bounds of the keys. -/
structure KeyMap where
  map : List (Nat × Value)
  minKey : Nat
  maxKey : Nat

/-- One link of the chain; a later link with the same key is dead. -/
def KeyMap.add (m : KeyMap) (link : Link) : KeyMap :=
  if (m.map.lookup link.key).isSome then m
  else ⟨m.map ++ [(link.key, link.value)], min m.minKey link.key, max m.maxKey link.key⟩

def gatherKeys (links : List Link) : KeyMap := links.foldl KeyMap.add ⟨[], 2 ^ 64 - 1, 0⟩

/-- The stores of the values at their keys. -/
def storeValues (size : Nat) : List Value → List (Nat × Value) → Result (List Value)
  | values, [] => .ok values
  | values, (key, value) :: entries =>
    if key < size then storeValues size (values.set key value) entries
    else .error (.status "XLS_RET_CHECK failure: key < values.size()")

/-- `map_to_array_value`. -/
def mapToArrayValue (map : List (Nat × Value)) : Result Value := do
  let values ← storeValues map.length (List.replicate map.length Value.token) map
  Value.array values

/-- The map with a value for every key below `n`. -/
def fillHoles (value : Value) (map : List (Nat × Value)) (n : Nat) : List (Nat × Value) :=
  (List.range n).foldl (fun m i => if (m.lookup i).isSome then m else m ++ [(i, value)]) map

/-- `XLS_RET_CHECK_EQ`. -/
def retCheckEq (a b : Nat) (text : String) : Result Unit :=
  if a = b then .ok () else .error (.status ("XLS_RET_CHECK failure: " ++ text))

/-- `index_space_size`; a space of more than `2 ^ 62` values counts as infinitely large. -/
def indexSpaceSize (indexWidth : Nat) : Option Nat :=
  if indexWidth < 63 then some (2 ^ indexWidth) else none

/-- The table of the keys; `elseLiteral` is the value above the chain, if it is a literal. -/
def tableFromKeys (spaceSize : Option Nat) (keys : KeyMap) (elseLiteral : Option Value) :
    Result (Option Value) :=
  if spaceSize = some keys.map.length then do
    -- the selects cover the index space, the value above the chain is dead
    retCheckEq keys.minKey 0 "min_key == 0"
    retCheckEq keys.maxKey (keys.map.length - 1) "max_key == index_space_size.value() - 1"
    let array ← mapToArrayValue keys.map
    return some array
  else
    match elseLiteral with
    | none => return none
    | some elseValue =>
      -- fewer holes than keys: each hole gets the value above the chain
      if spaceSize.any fun size => keys.map.length < size && size < keys.map.length * 2 then do
        let filled := fillHoles elseValue keys.map (spaceSize.getD 0)
        retCheckEq filled.length (spaceSize.getD 0) "map.size() == index_space_size.value()"
        let array ← mapToArrayValue filled
        return some array
      else if keys.map.length = (keys.maxKey + 1) % 2 ^ 64 then do
        -- an index past the end reads the last element
        retCheckEq keys.minKey 0 "min_key == 0"
        let array ← mapToArrayValue (keys.map ++ [((keys.maxKey + 1) % 2 ^ 64, elseValue)])
        return some array
      else return none

/-- `LinksToTable`. -/
def linksToTable (g : Graph) (links : List Link) : Result (Option Value) :=
  match links.head?, links.getLast? with
  | some front, some back => do
    let index ← derefOption g.nodes[front.index]?
    tableFromKeys (indexSpaceSize index.type.flatBitCount) (gatherKeys links)
      (literalValue g back.next)
  | _, _ => return none

/-! ### The pass -/

/-- The links above a node; the graph has no cycle, so the walk takes fewer steps than it has
nodes. -/
def chainLinks (g : Graph) (index : Nat) : Nat → Nat → List Link
  | 0, _ => []
  | fuel + 1, next =>
    match matchLink g next (some index) with
    | some link => link :: chainLinks g index fuel link.next
    | none => []

/-- `links`: a chain that starts at a node. -/
def chainFrom (g : Graph) (id : Nat) : Option (List Link) := do
  let start ← matchLink g id none
  return start :: chainLinks g start.index (g.nodes.length + 1) start.next

/-- The lookup that replaces the start of a chain. -/
def replaceWithLookup (id index : Nat) (table : Value) : Build Unit := do
  let n ← Graph.getNode id
  let arrayLiteral ← makeNode ⟨.literal table, [], .array table.children.length n.type⟩
  let lookup ← makeNode ⟨.arrayIndex, [arrayLiteral, index], n.type⟩
  replaceUsesWith id lookup

/-- One node in the loop of `RunOnFunctionBaseInternal`. -/
def visitNode (changed : Bool) (transformed : List Nat) (id : Nat) :
    Build (Bool × List Nat) := do
  -- the chain of this node was replaced from its start
  if transformed.contains id then return (changed, transformed)
  else
    let g ← get
    match chainFrom g id with
    | none => return (changed, transformed)
    | some links =>
      -- a table does not pay for two selects
      if links.length ≤ 2 then return (changed, transformed)
      else
        let table ← linksToTable g links
        match table, links.head? with
        | some table, some start => do
          replaceWithLookup id start.index table
          return (true, transformed ++ links.map Link.node)
        | _, _ => return (changed, transformed)

/-- `RunOnFunctionBaseInternal`, on the nodes in the order of `ReverseTopoSort`. -/
def runOnFunctionBaseInternal (order : List Nat) : Build Bool := do
  let result ← order.foldlM (fun state id => visitNode state.1 state.2 id) (false, [])
  return result.1

end Xls.TableSwitch

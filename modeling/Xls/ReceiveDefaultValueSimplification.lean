import Xls.ProcInterpreter

/-!
# Xls.ReceiveDefaultValueSimplification

The pass that removes selects between the data of a receive and zero
(`xls/passes/receive_default_value_simplification_pass.cc`). A receive that gets nothing
already has zero as its data, so the select is useless when it chooses zero in just that
case. Each replacement is compared with the interpreter: at every point of an activation, the
data has the value of the select that it replaces exactly when the condition `Meets` holds
(`resolve_select_eq_data_iff`).
-/

namespace Xls

open List LeafTree

/-- `IsAllZeros`. -/
def Value.isAllZeros (v : Value) : Bool := v.leaves.all Bits.isZero

namespace ReceiveDefaultValueSimplification

open ProcInterpreter

/-! ### The pass -/

/-- `ReceiveData`. -/
structure ReceiveData where
  receive : Nat
  data : Nat

/-- `predicate` and `is_blocking`, if the node is a receive. -/
def receiveOf (p : Proc) (id : Nat) : Option (Option Nat × Bool) := do
  let n ← p.nodes[id]?
  match n.op, n.operands with
  | .receive _ hasPredicate isBlocking, _ :: rest =>
    some (if hasPredicate then rest[0]? else none, isBlocking)
  | _, _ => none

/-- The operand of a `tuple_index`. -/
def tupleIndexOf (p : Proc) (index id : Nat) : Option Nat := do
  let n ← p.nodes[id]?
  match n.op, n.operands with
  | .ir (.tupleIndex i), [tuple] => if i = index then some tuple else none
  | _, _ => none

/-- `MatchReceiveDataValue`. -/
def matchReceiveDataValue (p : Proc) (id : Nat) : Option ReceiveData := do
  let receive ← tupleIndexOf p 1 id
  let _ ← receiveOf p receive
  return ⟨receive, id⟩

/-- `IsValidBitOfNonblockingReceive`, with the receive. -/
def validBitOfNonblockingReceive (p : Proc) (id : Nat) : Option Nat := do
  let receive ← tupleIndexOf p 2 id
  let (_, isBlocking) ← receiveOf p receive
  if isBlocking then none else some receive

/-- `KnownValue` of the stateless engine: all bits of a literal and the high bits of a zero
extension are known. -/
def knownValue (p : Proc) (id : Nat) : Option Value := do
  let n ← p.nodes[id]?
  match n.op, n.operands with
  | .ir (.literal value), _ => some value
  | .ir (.extend .zeroExt _), [arg] =>
    if p.nodes[arg]?.map (·.type) = some (.bits 0) then some (Value.zeroOfType n.type)
    else none
  | _, _ => if n.type.flatBitCount = 0 then some (Value.zeroOfType n.type) else none

/-- `IsBinarySelect`, with the selector and the cases. -/
def binarySelect (p : Proc) (id : Nat) : Option (Nat × Nat × Nat) := do
  let n ← p.nodes[id]?
  match n.op, n.operands with
  | .ir (.sel false), [selector, case0, case1] => some (selector, case0, case1)
  | _, _ => none

/-- `MatchUselessSelectAfterReceive`. -/
def matchUselessSelectAfterReceive (p : Proc) (select : Nat) : Option ReceiveData := do
  let (selector, case0, case1) ← binarySelect p select
  let receiveData ← matchReceiveDataValue p case1
  let constant ← knownValue p case0
  let (predicate, isBlocking) ← receiveOf p receiveData.receive
  if !constant.isAllZeros then none
  else if predicate = some selector then some receiveData
  -- the receive of the valid bit need not be the one of the data
  else if !isBlocking && (validBitOfNonblockingReceive p selector).isSome then some receiveData
  else none

/-- `ReplaceUsesWith`. -/
def replaceUsesWith (p : Proc) (node replacement : Nat) : Proc :=
  let rename (id : Nat) : Nat := if id = node then replacement else id
  { p with
    nodes := p.nodes.map fun n => { n with operands := n.operands.map rename }
    nextState := p.nextState.map rename }

/-- A select that is replaced, in the proc as it is then. -/
structure Replacement where
  proc : Proc
  select : Nat
  receiveData : ReceiveData

/-- The loop of `RunOnProcInternal`, with the replacements. -/
def runFrom : List Nat → Proc → Proc × List Replacement
  | [], p => (p, [])
  | id :: ids, p =>
    match matchUselessSelectAfterReceive p id with
    | some receiveData =>
      let (p', replacements) := runFrom ids (replaceUsesWith p id receiveData.data)
      (p', ⟨p, id, receiveData⟩ :: replacements)
    | none => runFrom ids p

/-- `RunOnProcInternal`; the nodes are listed in the order of `TopoSort`. -/
def runOnProcInternal (p : Proc) : Proc × List Replacement :=
  runFrom (List.range p.nodes.length) p

/-! ### Zero values -/

variable {v : Value} {os : List (Option Value)}

theorem isAllZeros_child {u : Value} (h : v.isAllZeros = true) (hu : u ∈ v.children) :
    u.isAllZeros = true := by
  cases v with
  | leaf b => cases hu
  | node vs =>
    unfold Value.isAllZeros at h ⊢
    rw [LeafTree.leaves, leavesList_eq_flatMap, all_flatMap] at h
    exact all_eq_true.1 h u hu

theorem eq_zeroOfType {t : IrType} (h : v.Conforms t) (hzero : v.isAllZeros = true) :
    v = Value.zeroOfType t := by
  refine (eq_of_rel_eq (rel_map_left.2 (Rel.symm ?_))).symm
  refine Rel.imp_of_mem_left (fun b w hb hw => ?_) h
  have hb : b.isZero = true := all_eq_true.1 hzero b hb
  exact Bits.ext_iff'.2 ⟨hw.symm, (beq_iff_eq.1 hb).symm⟩

theorem isAllZeros_zeroOfType (t : IrType) : (Value.zeroOfType t).isAllZeros = true := by
  unfold Value.zeroOfType
  induction t.shape using ind with
  | leaf w => rfl
  | node ts ih =>
    simp only [Value.isAllZeros, LeafTree.map, mapList_eq_map, LeafTree.leaves,
      leavesList_eq_flatMap, all_flatMap, all_map] at ih ⊢
    exact all_eq_true.2 ih

/-- A value without bits is all zeros. -/
theorem isAllZeros_of_flatBitCount {t : IrType} (h : v.Conforms t) (ht : t.flatBitCount = 0) :
    v.isAllZeros = true := by
  have hleaves := Rel.leaves h
  unfold IrType.flatBitCount at ht
  unfold Value.isAllZeros
  generalize v.leaves = bs, t.shape.leaves = ws at hleaves ht
  induction hleaves with
  | nil => rfl
  | @cons b w bs ws hb _ ih =>
    rw [sum_cons] at ht
    have hval := b.isLt
    rw [hb, show w = 0 by omega] at hval
    rw [all_cons, ih (by omega), Bool.and_true]
    exact beq_iff_eq.2 (by simpa using hval)

/-! ### Activations -/

/-- The first nodes of a proc were executed. An activation that stops, at a blocked receive
or after a send, goes on with the same values and other queues. -/
inductive Reached (e : Elaboration) (inst : ProcInstance) : Nat → ProcContinuation → Prop
  | start {c} (h : c.nodeValues = []) : Reached e inst 0 c
  | resume {i c} (k : Nat) : Reached e inst i c → Reached e inst i { c with nodeIndex := k }
  | step {i c n queues r x} (h : Reached e inst i c) (hn : inst.proc.nodes[i]? = some n)
      (hnode : executeNode e inst n ⟨c, queues⟩ = .ok (r, x)) (hr : ∀ ch, r ≠ .blocked ch) :
      Reached e inst (i + 1) x.continuation

/-- What the value of a node has to do with those of its operands. -/
def Computes (e : Elaboration) (c : ProcContinuation) (n : ProcInterpreter.ProcNode)
    (o : Option Value) : Prop :=
  (∀ u, o = some u → u.Conforms n.type) ∧
  match n.op, n.operands with
  | .ir kind, operands => ∃ vs u, o = some u ∧ resolveAll c operands = .ok vs ∧
      Interpreter.evalNode e.env c.state kind n.type vs = .ok u
  | .receive _ hasPredicate isBlocking, _ :: rest => ∃ u, o = some u ∧
      (u = Value.zeroOfType n.type ∨ (∃ x, u = receivedValue isBlocking x) ∧
        predicateHolds c (if hasPredicate then rest[0]? else none) = .ok true)
  | _, _ => True

variable {e : Elaboration} {inst : ProcInstance} {p : Proc} {n : ProcInterpreter.ProcNode}
  {c c' : ProcContinuation}

/-- More nodes have a value. -/
structure Extends (c c' : ProcContinuation) (os : List (Option Value)) : Prop where
  nodeValues : c'.nodeValues = c.nodeValues ++ os
  state : c'.state = c.state

theorem Extends.resolve (h : Extends c c' os) {id : Nat} (hv : resolve c id = .ok v) :
    ProcInterpreter.resolve c' id = .ok v := by
  unfold ProcInterpreter.resolve at hv ⊢
  rw [h.nodeValues]
  by_cases hid : id < c.nodeValues.length
  · rwa [getElem?_append_left hid]
  · rw [getElem?_eq_none (by omega)] at hv
    cases hv

theorem Extends.resolveAll (h : Extends c c' os) {ids : List Nat} {vs : List Value}
    (hvs : resolveAll c ids = .ok vs) : ProcInterpreter.resolveAll c' ids = .ok vs := by
  induction ids generalizing vs with
  | nil => exact hvs
  | cons id ids ih =>
    obtain ⟨v, hv, hrest⟩ := Result.bind_eq_ok.1 hvs
    obtain ⟨us, hus, hrest⟩ := Result.bind_eq_ok.1 hrest
    rw [ProcInterpreter.resolveAll, h.resolve hv, ih hus]
    exact hrest

variable {predicate : Option Nat} {r : Replacement}

theorem Extends.predicateHolds (h : Extends c c' os) {b : Bool}
    (hb : predicateHolds c predicate = .ok b) :
    ProcInterpreter.predicateHolds c' predicate = .ok b := by
  cases predicate with
  | none => exact hb
  | some id =>
    obtain ⟨v, hv, hrest⟩ := Result.bind_eq_ok.1 hb
    show resolveAsBool c' id = _
    rw [resolveAsBool, h.resolve hv]
    exact hrest

/-- What a node computes only depends on what its operands are. -/
theorem Computes.mono {o : Option Value} (h : Computes e c n o) (hle : Extends c c' os) :
    Computes e c' n o := by
  refine ⟨h.1, ?_⟩
  have hvalue := h.2
  clear h
  split at hvalue
  · obtain ⟨vs, u, ho, hvs, hu⟩ := hvalue
    exact ⟨vs, u, ho, hle.resolveAll hvs, hle.state ▸ hu⟩
  · obtain ⟨u, ho, hzero | ⟨hx, hb⟩⟩ := hvalue
    · exact ⟨u, ho, .inl hzero⟩
    · exact ⟨u, ho, .inr ⟨hx, hle.predicateHolds hb⟩⟩
  · trivial

theorem setValueResult_spec (h : setValueResult n c v = .ok c') :
    v.Conforms n.type ∧ Extends c c' [some v] := by
  unfold setValueResult at h
  split at h
  · rename_i hv
    cases h
    exact ⟨hv, rfl, rfl⟩
  · cases h

/-- Each other node appends the value it computes. -/
theorem handleLocal_computes {c₀ : ProcContinuation}
    (hop : ∀ name p b, n.op ≠ .receive name p b) (h : handleLocal e n c₀ = .ok c') :
    ∃ o, Computes e c₀ n o ∧ Extends c₀ c' [o] := by
  have hset : ∀ {c : ProcContinuation} {v : Value}, setValueResult n c v = .ok c' →
      c.nodeValues = c₀.nodeValues → c.state = c₀.state → (∀ kind, n.op ≠ .ir kind) →
      ∃ o, Computes e c₀ n o ∧ Extends c₀ c' [o] := by
    intro c v hv hvalues hstate hir
    obtain ⟨hconf, hext⟩ := setValueResult_spec hv
    refine ⟨some v, ⟨fun u hu => Option.some.inj hu ▸ hconf, ?_⟩,
      ⟨hvalues ▸ hext.nodeValues, hext.state.trans hstate⟩⟩
    split
    · exact absurd ‹_› (hir _)
    · exact absurd ‹_› (hop _ _ _)
    · trivial
  unfold handleLocal at h
  split at h
  · rename_i kind operands hkind
    obtain ⟨vs, hvs, h⟩ := Result.bind_eq_ok.1 h
    obtain ⟨u, hu, h⟩ := Result.bind_eq_ok.1 h
    obtain ⟨calls, -, h⟩ := Result.bind_eq_ok.1 h
    obtain ⟨hconf, hext⟩ := setValueResult_spec h
    refine ⟨some u, ⟨fun u' hu' => Option.some.inj hu' ▸ hconf, ?_⟩, ⟨hext.1, hext.2⟩⟩
    rw [hkind]
    exact ⟨vs, u, rfl, hvs, hu⟩
  · rename_i hkind _
    obtain ⟨holds, -, h⟩ := Result.bind_eq_ok.1 h
    exact hset h rfl rfl (by simp [hkind])
  · rename_i hkind _
    obtain ⟨holds, -, h⟩ := Result.bind_eq_ok.1 h
    split at h
    · obtain ⟨vs, -, h⟩ := Result.bind_eq_ok.1 h
      obtain ⟨message, -, h⟩ := Result.bind_eq_ok.1 h
      exact hset h rfl rfl (by simp [hkind])
    · exact hset h rfl rfl (by simp [hkind])
  · rename_i hkind _
    obtain ⟨active, -, h⟩ := Result.bind_eq_ok.1 h
    cases h
    refine ⟨none, ⟨nofun, ?_⟩, ⟨rfl, rfl⟩⟩
    rw [hkind]
    trivial
  · cases h

/-- A receive appends zeros, or a received value. -/
theorem handleReceive_computes {name : Nat} {isBlocking : Bool} {x x' : Execution} {r : NodeResult}
    (hr : ∀ ch, r ≠ .blocked ch)
    (h : handleReceive e inst n name predicate isBlocking x = .ok (r, x')) :
    ∃ u, u.Conforms n.type ∧ Extends x.continuation x'.continuation [some u] ∧
      (u = Value.zeroOfType n.type ∨ (∃ v, u = receivedValue isBlocking v) ∧
        predicateHolds x.continuation predicate = .ok true) := by
  obtain ⟨⟨id, channel, q⟩, -, h⟩ := Result.bind_eq_ok.1 h
  obtain ⟨active, hactive, h⟩ := Result.bind_eq_ok.1 h
  dsimp only at h
  split at h
  · rename_i hholds
    obtain ⟨⟨v, q'⟩, -, h⟩ := Result.bind_eq_ok.1 h
    dsimp only at h
    split at h
    · split at h
      · cases h
        exact absurd rfl (hr id)
      · -- the channel is empty
        obtain ⟨c, hc, h⟩ := Result.bind_eq_ok.1 h
        cases h
        obtain ⟨hconf, hext⟩ := setValueResult_spec hc
        exact ⟨_, hconf, hext, .inl rfl⟩
    · obtain ⟨c, hc, h⟩ := Result.bind_eq_ok.1 h
      cases h
      obtain ⟨hconf, hext⟩ := setValueResult_spec hc
      exact ⟨_, hconf, hext, .inr ⟨⟨_, rfl⟩, hholds ▸ hactive⟩⟩
  · obtain ⟨c, hc, h⟩ := Result.bind_eq_ok.1 h
    cases h
    obtain ⟨hconf, hext⟩ := setValueResult_spec hc
    exact ⟨_, hconf, hext, .inl rfl⟩

/-- Each node appends the value it computes. -/
theorem executeNode_computes {x x' : Execution} {r : NodeResult} (hr : ∀ ch, r ≠ .blocked ch)
    (h : executeNode e inst n x = .ok (r, x')) :
    ∃ o, Computes e x.continuation n o ∧ Extends x.continuation x'.continuation [o] := by
  unfold executeNode at h
  split at h
  · rename_i name hasPredicate isBlocking token rest hop hoperands
    obtain ⟨u, hconf, hext, hu⟩ := handleReceive_computes hr h
    refine ⟨some u, ⟨fun u' hu' => Option.some.inj hu' ▸ hconf, ?_⟩, hext⟩
    rw [hop, hoperands]
    exact ⟨u, rfl, hu⟩
  · rename_i hop _
    obtain ⟨⟨id, channel, q⟩, -, h⟩ := Result.bind_eq_ok.1 h
    obtain ⟨active, -, h⟩ := Result.bind_eq_ok.1 h
    have hsend : ∀ {c' : ProcContinuation}, setValueResult n x.continuation Value.token = .ok c' →
        ∃ o, Computes e x.continuation n o ∧ Extends x.continuation c' [o] := by
      intro c' hc
      obtain ⟨hconf, hext⟩ := setValueResult_spec hc
      refine ⟨some Value.token, ⟨fun u' hu' => Option.some.inj hu' ▸ hconf, ?_⟩, hext⟩
      rw [hop]
      trivial
    dsimp only at h
    split at h
    · obtain ⟨v, -, h⟩ := Result.bind_eq_ok.1 h
      obtain ⟨⟨error, q'⟩, -, h⟩ := Result.bind_eq_ok.1 h
      dsimp only at h
      split at h
      · cases h
      · obtain ⟨c, hc, h⟩ := Result.bind_eq_ok.1 h
        cases h
        exact hsend hc
    · obtain ⟨c, hc, h⟩ := Result.bind_eq_ok.1 h
      cases h
      exact hsend hc
  · cases h
  · cases h
  · rename_i hreceive _ _ _
    obtain ⟨c, hc, h⟩ := Result.bind_eq_ok.1 h
    cases h
    exact handleLocal_computes (fun name q b hop => by simp_all) hc

/-- Every executed node has the value that its operation computes. -/
theorem Reached.computes {i : Nat} (h : Reached e inst i c) :
    c.nodeValues.length = i ∧ ∀ j n, j < i → inst.proc.nodes[j]? = some n →
      ∃ o, c.nodeValues[j]? = some o ∧ Computes e c n o := by
  induction h with
  | start h => exact ⟨by rw [h, length_nil], fun j n hj => absurd hj (Nat.not_lt_zero j)⟩
  | resume k _ ih =>
    refine ⟨ih.1, fun j n hj hn => ?_⟩
    obtain ⟨o, ho, hm⟩ := ih.2 j n hj hn
    exact ⟨o, ho, hm.mono ⟨(append_nil _).symm, rfl⟩⟩
  | @step i c n queues r x h hn hnode hr ih =>
    obtain ⟨o, ho, hext⟩ := executeNode_computes hr hnode
    refine ⟨by simp [hext.nodeValues, ih.1], fun j m hj hm => ?_⟩
    rw [hext.nodeValues]
    rcases Nat.lt_succ_iff_lt_or_eq.1 hj with hj | rfl
    · obtain ⟨o', ho', hm⟩ := ih.2 j m hj hm
      exact ⟨o', by rw [getElem?_append_left (ih.1 ▸ hj), ho'], hm.mono hext⟩
    · cases hn.symm.trans hm
      exact ⟨o, by simp [← ih.1], ho.mono hext⟩

/-! ### Values of the matched nodes -/

theorem resolve_eq_ok {id : Nat} : resolve c id = .ok v ↔ c.nodeValues[id]? = some (some v) := by
  unfold resolve
  rcases h : c.nodeValues[id]? with _ | _ | u <;> simp [derefOption]

section Values

variable {i id : Nat} {v : Value} (hc : Reached e inst i c)
include hc

theorem Reached.of_resolve (hn : inst.proc.nodes[id]? = some n) (hv : resolve c id = .ok v) :
    Computes e c n (some v) := by
  have hvalue := resolve_eq_ok.1 hv
  have hid := (List.getElem?_eq_some_iff.1 hvalue).1
  obtain ⟨o, ho, hn⟩ := hc.computes.2 id n (hc.computes.1 ▸ hid) hn
  cases hvalue.symm.trans ho
  exact hn

/-- The value of a node of a function operation. -/
theorem Reached.ir {kind : NodeKind} (hn : inst.proc.nodes[id]? = some n) (hop : n.op = .ir kind)
    (hv : resolve c id = .ok v) :
    v.Conforms n.type ∧ ∃ vs, resolveAll c n.operands = .ok vs ∧
      Interpreter.evalNode e.env c.state kind n.type vs = .ok v := by
  have hcomputes := hc.of_resolve hn hv
  have hvalue := hcomputes.2
  rw [hop] at hvalue
  obtain ⟨vs, u, hu, hvs, heval⟩ := hvalue
  cases hu
  exact ⟨hcomputes.1 v rfl, vs, hvs, heval⟩

/-- A member of a tuple that was reached. -/
theorem Reached.tupleIndex {index tuple : Nat}
    (h : tupleIndexOf inst.proc index id = some tuple) (hv : resolve c id = .ok v) :
    ∃ u, resolve c tuple = .ok u ∧ u.children[index]? = some v := by
  obtain ⟨n, hn, h⟩ := Option.bind_eq_some_iff.1 h
  split at h
  · split at h
    · rename_i hop hoperands hindex
      cases h
      obtain ⟨-, vs, hvs, heval⟩ := hc.ir hn hop hv
      rw [hoperands] at hvs
      obtain ⟨u, hu, hrest⟩ := Result.bind_eq_ok.1 hvs
      cases hrest
      have hchild : derefOption u.children[index]? = .ok v := hindex ▸ heval
      refine ⟨u, hu, ?_⟩
      cases hget : u.children[index]? with
      | none => rw [hget] at hchild; cases hchild
      | some w => rw [hget] at hchild; cases hchild; rfl
    · cases h
  · cases h

/-- A receive got a value, and then its predicate is true, or its value is zero. -/
theorem Reached.receive {predicate : Option Nat} {isBlocking : Bool}
    (h : receiveOf inst.proc id = some (predicate, isBlocking)) (hv : resolve c id = .ok v) :
    v.isAllZeros = true ∨ (∃ x, v = receivedValue isBlocking x) ∧
      predicateHolds c predicate = .ok true := by
  obtain ⟨n, hn, h⟩ := Option.bind_eq_some_iff.1 h
  split at h
  · rename_i hop hoperands
    cases h
    have hvalue := (hc.of_resolve hn hv).2
    rw [hop, hoperands] at hvalue
    obtain ⟨u, hu, hzero | hgot⟩ := hvalue
    · cases hu
      exact .inl (hzero ▸ isAllZeros_zeroOfType _)
    · cases hu
      exact .inr hgot
  · cases h

/-- What the engine knows is the value of the node. -/
theorem Reached.knownValue {known : Value} (h : knownValue inst.proc id = some known)
    (hv : resolve c id = .ok v) : v = known := by
  obtain ⟨n, hn, h⟩ := Option.bind_eq_some_iff.1 h
  have hconf := (hc.of_resolve hn hv).1 v rfl
  split at h
  · rename_i hop
    cases h
    obtain ⟨-, vs, -, heval⟩ := hc.ir hn hop hv
    cases heval
    rfl
  · rename_i newBitCount arg hop hoperands
    split at h
    · rename_i harg
      cases h
      obtain ⟨-, vs, hvs, heval⟩ := hc.ir hn hop hv
      rw [hoperands] at hvs
      obtain ⟨u, hu, hrest⟩ := Result.bind_eq_ok.1 hvs
      cases hrest
      obtain ⟨m, hm, htype⟩ := Option.map_eq_some_iff.1 harg
      obtain ⟨b, rfl, hwidth⟩ :=
        Value.conforms_bits (htype ▸ (hc.of_resolve hm hu).1 u rfl)
      -- the operand has no bits, so its extension is zero
      obtain ⟨x, hx, heval⟩ := Result.bind_eq_ok.1 heval
      cases hx
      obtain ⟨r, hr, heval⟩ := Result.bind_eq_ok.1 heval
      cases heval
      obtain ⟨-, -, hr⟩ := Result.bind_eq_ok.1 hr
      cases hr
      have hval : b.val = 0 := by simpa [hwidth] using b.isLt
      refine eq_zeroOfType hconf ?_
      simp [Value.isAllZeros, LeafTree.leaves, Bits.zeroExtend, Bits.isZero, hval]
    · cases h
  · split at h
    · rename_i hzero
      cases h
      exact eq_zeroOfType hconf (isAllZeros_of_flatBitCount hconf hzero)
    · cases h

/-- A select has the value of the case that its selector chooses, of the type of the node. -/
theorem Reached.select {selector case0 case1 : Nat}
    (h : binarySelect inst.proc id = some (selector, case0, case1)) (hi : id < i) :
    ∃ n u v₀ v₁ holds, inst.proc.nodes[id]? = some n ∧ resolve c id = .ok u ∧
      u.Conforms n.type ∧ resolve c case0 = .ok v₀ ∧ resolve c case1 = .ok v₁ ∧
      resolveAsBool c selector = .ok holds ∧ u = if holds then v₁ else v₀ := by
  obtain ⟨n, hn, h⟩ := Option.bind_eq_some_iff.1 h
  split at h
  · rename_i hop hoperands
    cases h
    obtain ⟨o, ho, hcomputes⟩ := hc.computes.2 id n hi hn
    have hvalue := hcomputes.2
    rw [hop] at hvalue
    obtain ⟨-, u, rfl, -⟩ := hvalue
    obtain ⟨hconf, vs, hvs, heval⟩ := hc.ir hn hop (resolve_eq_ok.2 ho)
    rw [hoperands] at hvs
    obtain ⟨s, hs, hvs⟩ := Result.bind_eq_ok.1 hvs
    obtain ⟨vs₀, hvs₀, hvs⟩ := Result.bind_eq_ok.1 hvs
    cases hvs
    obtain ⟨v₀, hv₀, hvs₀⟩ := Result.bind_eq_ok.1 hvs₀
    obtain ⟨vs₁, hvs₁, hvs₀⟩ := Result.bind_eq_ok.1 hvs₀
    cases hvs₀
    obtain ⟨v₁, hv₁, hvs₁⟩ := Result.bind_eq_ok.1 hvs₁
    cases hvs₁
    obtain ⟨b, hb, heval⟩ := Result.bind_eq_ok.1 heval
    obtain ⟨-, -, heval⟩ := Result.bind_eq_ok.1 heval
    refine ⟨n, u, v₀, v₁, !b.isZero, hn, resolve_eq_ok.2 ho, hconf, hv₀, hv₁, ?_, ?_⟩
    · rw [resolveAsBool, hs, Result.ok_bind, hb]
      rfl
    · obtain ⟨w, val, hlt⟩ := b
      rcases val with _ | _ | val
      · cases heval
        rfl
      · cases heval
        rfl
      · -- there is no case for such a selector
        simp at heval
  · cases h

end Values

/-! ### Replacements -/

/-- The type of a node. -/
def typeOf (p : Proc) (id : Nat) : Option IrType := p.nodes[id]?.map (·.type)

/-- The cases of a select have its type, as the verifier checks. -/
def SelectsTyped (p : Proc) : Prop :=
  ∀ id selector case0 case1, binarySelect p id = some (selector, case0, case1) →
    typeOf p case0 = typeOf p id ∧ typeOf p case1 = typeOf p id

/-- When the data of the receive has the value of the select: the selector is the predicate of
the receive or its own valid bit, or is true, or the data that was received is zero. -/
def Meets (c : ProcContinuation) (r : Replacement) : Prop :=
  ∃ selector case0 case1, binarySelect r.proc r.select = some (selector, case0, case1) ∧
    ((∃ isBlocking, receiveOf r.proc r.receiveData.receive = some (some selector, isBlocking)) ∨
      validBitOfNonblockingReceive r.proc selector = some r.receiveData.receive ∨
      resolveAsBool c selector = .ok true ∨
      ∃ v u : Value, resolve c r.receiveData.receive = .ok v ∧ v.children[1]? = some u ∧
        u.isAllZeros = true)

/-- The nodes of a match. -/
theorem match_eq_some {select : Nat} {receiveData : ReceiveData}
    (h : matchUselessSelectAfterReceive p select = some receiveData) :
    ∃ selector case0 known, binarySelect p select = some (selector, case0, receiveData.data) ∧
      tupleIndexOf p 1 receiveData.data = some receiveData.receive ∧
      knownValue p case0 = some known ∧ known.isAllZeros = true := by
  obtain ⟨⟨selector, case0, case1⟩, hselect, h⟩ := Option.bind_eq_some_iff.1 h
  obtain ⟨rd, hdata, h⟩ := Option.bind_eq_some_iff.1 h
  obtain ⟨known, hknown, h⟩ := Option.bind_eq_some_iff.1 h
  obtain ⟨⟨predicate, isBlocking⟩, hreceive, h⟩ := Option.bind_eq_some_iff.1 h
  obtain ⟨receive, htuple, hdata⟩ := Option.bind_eq_some_iff.1 hdata
  obtain ⟨_, -, hdata⟩ := Option.bind_eq_some_iff.1 hdata
  cases hdata
  dsimp only at h
  have hzero : known.isAllZeros = true ∧ (⟨receive, case1⟩ : ReceiveData) = receiveData := by
    split at h
    · cases h
    · rename_i hzero
      refine ⟨by simpa using hzero, ?_⟩
      split at h
      · exact Option.some.inj h
      · split at h
        · exact Option.some.inj h
        · cases h
  obtain ⟨hzero, rfl⟩ := hzero
  exact ⟨selector, case0, known, hselect, htuple, hknown, hzero⟩

/-- One replacement, in an activation that has executed the select. -/
theorem resolve_eq_iff_of_match {channelInstance : Nat → Option Nat} {i : Nat}
    (htyped : SelectsTyped r.proc)
    (h : matchUselessSelectAfterReceive r.proc r.select = some r.receiveData)
    (hc : Reached e ⟨r.proc, channelInstance⟩ i c) (hi : r.select < i) :
    resolve c r.select = resolve c r.receiveData.data ↔ Meets c r := by
  obtain ⟨selector, case0, known, hselect, htuple, hknown, hzero⟩ := match_eq_some h
  obtain ⟨n, u, v₀, v₁, holds, hn, hu, hconf, hv₀, hv₁, hholds, hvalue⟩ := hc.select hselect hi
  obtain ⟨v, hv, hchild⟩ := hc.tupleIndex htuple hv₁
  have hv₀zero : v₀.isAllZeros = true := hc.knownValue hknown hv₀ ▸ hzero
  rw [hu, hv₁, Except.ok.injEq]
  constructor
  · intro heq
    refine ⟨selector, case0, _, hselect, .inr (.inr ?_)⟩
    cases holds with
    | true => exact .inl hholds
    | false => exact .inr ⟨v, v₁, hv, hchild, heq ▸ hvalue ▸ hv₀zero⟩
  · rintro ⟨selector', case0', case1', hselect', hmeets⟩
    cases hselect.symm.trans hselect'
    -- a selector that is false needs data that is zero
    have hfalse : (holds = false → v₁.isAllZeros = true) → u = v₁ := by
      intro hdata
      cases holds with
      | true => exact hvalue
      | false =>
        have htype := (htyped r.select _ _ _ hselect).2
        unfold typeOf at htype
        rw [hn] at htype
        obtain ⟨m, hm, htype⟩ := Option.map_eq_some_iff.1 htype
        have hconf₁ := (hc.of_resolve hm hv₁).1 v₁ rfl
        rw [show m.type = n.type from htype] at hconf₁
        rw [eq_zeroOfType hconf₁ (hdata rfl), eq_zeroOfType hconf (hvalue ▸ hv₀zero)]
    apply hfalse
    intro hfalse
    rcases hmeets with ⟨isBlocking, hpredicate⟩ | hvalid | htrue | ⟨v', u', hv', hchild', hdata⟩
    · rcases hc.receive hpredicate hv with hzero | ⟨-, hactive⟩
      · exact isAllZeros_child hzero (mem_of_getElem? hchild)
      · have hactive : resolveAsBool c selector = .ok true := hactive
        rw [hholds, hfalse] at hactive
        cases hactive
    · obtain ⟨receive, hbit, hvalid⟩ := Option.bind_eq_some_iff.1 hvalid
      obtain ⟨⟨predicate, isBlocking⟩, hreceive, hvalid⟩ := Option.bind_eq_some_iff.1 hvalid
      cases isBlocking with
      | true => cases hvalid
      | false =>
        cases hvalid
        rcases hc.receive hreceive hv with hzero | ⟨⟨x, rfl⟩, -⟩
        · exact isAllZeros_child hzero (mem_of_getElem? hchild)
        · -- the valid bit is set
          obtain ⟨s, hs, hrest⟩ := Result.bind_eq_ok.1 hholds
          obtain ⟨v', hv', hbit⟩ := hc.tupleIndex hbit hs
          cases hv.symm.trans hv'
          cases hbit
          rw [hfalse] at hrest
          cases hrest
    · rw [hholds, hfalse] at htrue
      cases htrue
    · cases hv.symm.trans hv'
      cases hchild.symm.trans hchild'
      exact hdata

/-! ### The loop -/

theorem typeOf_replaceUsesWith (node replacement id : Nat) :
    typeOf (replaceUsesWith p node replacement) id = typeOf p id := by
  simp [typeOf, replaceUsesWith, Function.comp_def]

/-- Redirecting uses to a node of the same type keeps the selects typed. -/
theorem selectsTyped_replaceUsesWith {node replacement : Nat} (h : SelectsTyped p)
    (htype : typeOf p replacement = typeOf p node) :
    SelectsTyped (replaceUsesWith p node replacement) := by
  have hrename (id : Nat) : typeOf p (if id = node then replacement else id) = typeOf p id := by
    split
    · rename_i hid
      rw [hid, htype]
    · rfl
  intro id selector case0 case1 hselect
  obtain ⟨m, hm, hselect⟩ := Option.bind_eq_some_iff.1 hselect
  simp only [replaceUsesWith, getElem?_map] at hm
  obtain ⟨n, hn, rfl⟩ := Option.map_eq_some_iff.1 hm
  obtain ⟨op, operands, type⟩ := n
  dsimp only at hselect
  split at hselect
  · rename_i hoperands
    cases hselect
    obtain ⟨s', rest, rfl, rfl, h₁⟩ := map_eq_cons_iff.1 hoperands
    obtain ⟨z', rest, rfl, rfl, h₂⟩ := map_eq_cons_iff.1 h₁
    obtain ⟨d', rest, rfl, rfl, h₃⟩ := map_eq_cons_iff.1 h₂
    cases map_eq_nil_iff.1 h₃
    have hp : binarySelect p id = some (s', z', d') := by
      rw [binarySelect, hn]
      rfl
    rw [typeOf_replaceUsesWith, typeOf_replaceUsesWith, typeOf_replaceUsesWith, hrename, hrename]
    exact h id s' z' d' hp
  · cases hselect

/-- Every select that is replaced matched in the proc as it was then. -/
theorem match_of_mem_runFrom {ids : List Nat} (h : SelectsTyped p) (hr : r ∈ (runFrom ids p).2) :
    SelectsTyped r.proc ∧ matchUselessSelectAfterReceive r.proc r.select = some r.receiveData := by
  induction ids generalizing p with
  | nil => cases hr
  | cons id ids ih =>
    rw [runFrom] at hr
    split at hr
    · rename_i receiveData hmatch
      rcases mem_cons.1 hr with rfl | hr
      · exact ⟨h, hmatch⟩
      · obtain ⟨selector, case0, known, hselect, -⟩ := match_eq_some hmatch
        exact ih (selectsTyped_replaceUsesWith h (h _ _ _ _ hselect).2) hr
    · exact ih h hr

/-- At every point of every activation, the data that replaces a select has its value exactly
when the condition holds. -/
theorem resolve_select_eq_data_iff (h : SelectsTyped p) {r : Replacement}
    (hr : r ∈ (runOnProcInternal p).2) {channelInstance : Nat → Option Nat} {i : Nat}
    (hc : Reached e ⟨r.proc, channelInstance⟩ i c) (hi : r.select < i) :
    resolve c r.select = resolve c r.receiveData.data ↔ Meets c r :=
  have hmatch := match_of_mem_runFrom h hr
  resolve_eq_iff_of_match hmatch.1 hmatch.2 hc hi

/-! ### Two receives -/

/-- The data of the first receive is selected by the valid bit of the second. -/
def exampleProc : Proc where
  nodes := [⟨.ir (.param 0), [], .token⟩,
    ⟨.receive 0 false false, [0], .tuple [.token, .bits 8, .bits 1]⟩,
    ⟨.receive 1 false false, [0], .tuple [.token, .bits 8, .bits 1]⟩,
    ⟨.ir (.tupleIndex 1), [1], .bits 8⟩, ⟨.ir (.tupleIndex 2), [2], .bits 1⟩,
    ⟨.ir (.literal (.leaf (Bits.zero 8))), [], .bits 8⟩,
    ⟨.ir (.sel false), [4, 5, 3], .bits 8⟩]
  initValues := [Value.token]
  nextState := [0]

def exampleElaboration : Elaboration where
  env := ⟨fun _ => [], fun _ _ => .error .check⟩
  callEvents _ _ := ⟨[], []⟩
  channels := [0, 1].map fun _ =>
    ⟨"c", .streaming, "bits[8]", fun v => decide (v.Conforms (.bits 8)), fun _ => ""⟩
  instances := [⟨exampleProc, some⟩]

theorem selectsTyped_exampleProc : SelectsTyped exampleProc := by
  intro id selector case0 case1 h
  rcases id with _ | _ | _ | _ | _ | _ | _ | id <;> cases h
  exact ⟨rfl, rfl⟩

/-- The first channel holds a value and the second is empty. -/
theorem reached_exampleProc : ∃ c, Reached exampleElaboration ⟨exampleProc, some⟩ 7 c ∧
    resolve c 6 = .ok (.leaf (Bits.zero 8)) ∧ resolve c 3 = .ok (.leaf (Bits.ofNat 8 7)) := by
  let queues : List Queue := [.new [.leaf (Bits.ofNat 8 7)], .new []]
  have h0 : Reached exampleElaboration ⟨exampleProc, some⟩ 0 (newContinuation exampleProc) :=
    .start rfl
  have step {i c n r x} (h : Reached exampleElaboration ⟨exampleProc, some⟩ i c)
      (hn : exampleProc.nodes[i]? = some n)
      (hnode : executeNode exampleElaboration ⟨exampleProc, some⟩ n ⟨c, queues⟩ = .ok (r, x))
      (hr : ∀ ch, r ≠ .blocked ch) :
      Reached exampleElaboration ⟨exampleProc, some⟩ (i + 1) x.continuation :=
    h.step hn hnode hr
  have h1 := step h0 rfl rfl nofun
  have h2 := step h1 rfl rfl nofun
  have h3 := step h2 rfl rfl nofun
  have h4 := step h3 rfl rfl nofun
  have h5 := step h4 rfl rfl nofun
  have h6 := step h5 rfl rfl nofun
  exact ⟨_, step h6 rfl rfl nofun, rfl, rfl⟩

def exampleReplacement : Replacement := ⟨exampleProc, 6, ⟨1, 3⟩⟩

theorem mem_exampleProc : exampleReplacement ∈ (runOnProcInternal exampleProc).2 :=
  mem_singleton_self _

/-- The select is zero, as its valid bit is, and the data that replaces it is not. -/
theorem resolve_select_ne_data : SelectsTyped exampleProc ∧
    exampleReplacement ∈ (runOnProcInternal exampleProc).2 ∧
    ∃ c, Reached exampleElaboration ⟨exampleReplacement.proc, some⟩ 7 c ∧
      resolve c exampleReplacement.select ≠ resolve c exampleReplacement.receiveData.data := by
  obtain ⟨c, hc, hselect, hdata⟩ := reached_exampleProc
  refine ⟨selectsTyped_exampleProc, mem_exampleProc, c, hc, ?_⟩
  show resolve c 6 ≠ resolve c 3
  rw [hselect, hdata]
  exact fun h => absurd (Except.ok.inj h) (by decide)

/-- The condition, at the two receives. -/
theorem resolve_select_eq_data_iff_exampleProc :
    ∃ c, Reached exampleElaboration ⟨exampleReplacement.proc, some⟩ 7 c ∧
      (resolve c exampleReplacement.select = resolve c exampleReplacement.receiveData.data ↔
        Meets c exampleReplacement) := by
  obtain ⟨c, hc, -, -⟩ := reached_exampleProc
  exact ⟨c, hc, resolve_select_eq_data_iff selectsTyped_exampleProc mem_exampleProc hc (by decide)⟩

end ReceiveDefaultValueSimplification

end Xls

import Xls.ProcState.Inverse

/-!
# Xls.ProcState.Failures

What a call on the state elements leaves of the proc when it fails. Several calls change the
proc before their last check, so a failing call leaves the proc as it was only if an earlier
check fails (`afterFailure_eq_iff`).
-/

namespace Xls.ProcState

open Result List Option

variable (typeText : IrType → String) (valueText : KindedValue → String)

/-! ### The proc after a call that fails -/

/-- The null pointer. -/
def null : Nat := 0

/-- The proc that a step leaves when it fails, and what follows when it does not. -/
def orElse (step : Result ProcState) (p : ProcState) (next : ProcState → ProcState) : ProcState :=
  match step with
  | .ok q => next q
  | .error _ => p

/-- `RemoveStateElement` before it looks at the users of the parameter. -/
def eraseNext (p : ProcState) (index next : Nat) : ProcState :=
  let relabeled :=
    if index + 1 < p.params.length then
      ListIndex.relabel p.nextStateIndices fun i => if i ≤ index then i else i - 1
    else p.nextStateIndices
  { p with
    nextStateIndices := ListIndex.erase relabeled next index
    nextState := p.nextState.eraseIdx index }

/-- `RemoveStateElement`. -/
def afterRemoveStateElement (p : ProcState) (index : Nat) : ProcState :=
  if index < p.params.length then
    match p.nextState[index]? with
    | some next => p.eraseNext index next
    | none => p
  else p

/-- `ReplaceStateElement` before it removes the parameter. -/
def clearNext (p : ProcState) (index next : Nat) : ProcState :=
  { p with
    nextStateIndices := ListIndex.erase p.nextStateIndices next index
    nextState := p.nextState.set index null }

/-- `ReplaceStateElement`. The next state is null from the first change on. -/
def afterReplaceStateElement (p : ProcState) (index address : Nat) (name : String)
    (initValue : KindedValue) : ProcState :=
  match p.params[index]?, p.nextState[index]? with
  | some oldParam, some next =>
    if (p.node oldParam).all fun data => data.users = [] then
      let p := p.clearNext index next
      orElse (p.removeNode oldParam) p fun p =>
        orElse (p.makeParam address name initValue) p fun p =>
          orElse (p.moveParamToIndex address index) p id
    else p
  | _, _ => p

/-- `InsertStateElement`. With a negative index, the parameter stays where it was made. -/
def afterInsertStateElement (p : ProcState) (index : Int) (address : Nat) (name : String)
    (initValue : KindedValue) : ProcState :=
  if index ≤ p.params.length then
    orElse (p.makeParam address name initValue) p fun p =>
      orElse (p.moveParamToIndex address index) p id
  else p

/-- The loop that removes the state elements. -/
def afterRemoveAll : Nat → ProcState → ProcState
  | 0, p => p
  | count + 1, p =>
    orElse (p.removeStateElement count) (p.afterRemoveStateElement count) (afterRemoveAll count)

/-- The loop that appends state elements. -/
def afterAppendAll : List (Nat × String × KindedValue × Option Nat) → ProcState → ProcState
  | [], p => p
  | (address, name, initValue, nextState) :: rest, p =>
    orElse (p.appendStateElement typeText valueText address name initValue nextState)
      (p.afterInsertStateElement p.params.length address name initValue) (afterAppendAll rest)

/-- The elements that `ReplaceState` appends, if the lists have equal lengths. -/
def newElements (addresses : List Nat) (names : List String) (initValues : List KindedValue) :
    Option (List Nat) → Option (List (Nat × String × KindedValue × Option Nat))
  | none =>
    if names.length ≠ initValues.length then none
    else some (addresses.zip (names.zip (initValues.map fun v => (v, none))))
  | some nextState =>
    if names.length ≠ nextState.length ∨ names.length ≠ initValues.length then none
    else some (addresses.zip (names.zip (initValues.zip (nextState.map some))))

/-- The proc that a call leaves when it fails. -/
def afterFailure (p : ProcState) : Call → ProcState
  | .append address name initValue _ =>
    p.afterInsertStateElement p.params.length address name initValue
  | .insert index address name initValue _ =>
    p.afterInsertStateElement index address name initValue
  | .replaceElement index address name initValue _ =>
    p.afterReplaceStateElement index address name initValue
  | .remove index => p.afterRemoveStateElement index
  | .replace addresses names initValues nextState =>
    orElse (removeAll p.params.length p) (afterRemoveAll p.params.length p) fun q =>
      match newElements addresses names initValues nextState with
      | none => q
      | some elements => afterAppendAll typeText valueText elements q
  | .setNext .. | .editNodes _ => p

/-! ### Calls that can be made -/

/-- The state elements of a proc and its nodes. -/
structure Valid (p : ProcState) : Prop where
  nextLength : p.nextState.length = p.params.length
  nodup : p.params.Nodup
  live : ∀ n ∈ p.params, (p.node n).isSome = true
  nextLive : ∀ n ∈ p.nextState, (p.node n).isSome = true
  null : p.node null = none

/-- An initial value is not invalid, and a next state is a node of the proc. -/
def Given (node : Nat → Option ProcNode) (initValue : KindedValue) (nextState : Option Nat) :
    Prop :=
  (∃ type, initValue.typeForValue = .ok type) ∧ ∀ n, nextState = some n → (node n).isSome = true

/-- The arguments of a call: nodes of the proc that the call does not remove, and an address that
the allocator can return. -/
def Callable (p : ProcState) : Call → Prop
  | .append address _ initValue nextState | .insert _ address _ initValue nextState =>
    p.node address = none ∧ Given p.node initValue nextState
  | .replaceElement index address _ initValue nextState =>
    (p.node address = none ∨ p.params[index]? = some address) ∧
      Given p.node initValue nextState ∧ ∀ n, nextState = some n → p.params[index]? ≠ some n
  | .replace addresses names initValues nextState =>
    ∀ elements, newElements addresses names initValues nextState = some elements →
      (elements.map Prod.fst).Nodup ∧ ∀ e ∈ elements, (p.node e.1 = none ∨ e.1 ∈ p.params) ∧
        Given p.node e.2.2.1 e.2.2.2 ∧ ∀ n, e.2.2.2 = some n → n ∉ p.params
  | .remove _ | .setNext .. | .editNodes _ => True

/-! ### When a failing call changes nothing -/

/-- The next state has the type of the initial value. -/
def Fits (node : Nat → Option ProcNode) (initValue : KindedValue) (nextState : Option Nat) : Prop :=
  ∀ n data, nextState = some n → node n = some data →
    initValue.conformsToType data.type = .ok true

/-- The parameter has no users. -/
def NoUsers (p : ProcState) (param : Nat) : Prop :=
  ∀ data, p.node param = some data → data.users = []

/-- The index is above the range, or a check that comes before the changes fails, or no later one
does. -/
def Unchanged (p : ProcState) : Call → Prop
  | .append _ _ initValue nextState => Fits p.node initValue nextState
  | .insert index _ _ initValue nextState =>
    index ≤ p.params.length → 0 ≤ index ∧ Fits p.node initValue nextState
  | .replaceElement index _ _ initValue nextState =>
    ∀ param, p.params[index]? = some param → p.NoUsers param →
      (∀ j ∈ p.nextStateIndices param, p.nextState[index]? = some param ∧ j = index) ∧
        Fits p.node initValue nextState
  | .remove index =>
    ∀ param, p.params[index]? = some param → p.NoUsers param ∧
      ∀ j ∈ p.nextStateIndices param, p.nextState[index]? = some param ∧
        (j = index ∨ j = index + 1 ∧ index + 1 < p.params.length)
  | .replace addresses names initValues nextState =>
    match newElements addresses names initValues nextState with
    | none => p.params = []
    | some elements =>
      (∀ i param, p.params[i]? = some param → p.NoUsers param ∧
        ∀ j ∈ p.nextStateIndices param, i ≤ j ∧ p.nextState[j]? = some param) ∧
      ∀ e ∈ elements, Fits p.node e.2.2.1 e.2.2.2
  | .setNext .. | .editNodes _ => True

/-! ### The steps of the calls -/

mutual

/-- A value that is not invalid can be compared with every type. -/
theorem exists_conformsToType : ∀ {v : KindedValue} {type : IrType}, v.typeForValue = .ok type →
    ∀ t, ∃ b, v.conformsToType t = .ok b
  | .bits b, _, _, t => by cases t <;> exact ⟨_, rfl⟩
  | .token, _, _, t => by cases t <;> exact ⟨_, rfl⟩
  | .invalid, _, h, _ => by cases h
  | .array first rest, _, h, t => by
    obtain ⟨_, hfirst, -⟩ := bind_eq_ok.mp h
    cases t with
    | array size element =>
      rw [KindedValue.conformsToType]
      split
      · exact exists_conformsToType hfirst element
      · exact ⟨_, rfl⟩
    | _ => exact ⟨_, rfl⟩
  | .tuple elements, _, h, t => by
    obtain ⟨_, helements, -⟩ := bind_eq_ok.mp h
    cases t with
    | tuple types =>
      rw [KindedValue.conformsToType]
      split
      · exact exists_conformToTypes helements types
      · exact ⟨_, rfl⟩
    | _ => exact ⟨_, rfl⟩

theorem exists_conformToTypes : ∀ {vs : List KindedValue} {types : List IrType},
    KindedValue.typesForValues vs = .ok types → ∀ ts, ∃ b, KindedValue.conformToTypes vs ts = .ok b
  | [], _, _, _ => ⟨_, by rw [KindedValue.conformToTypes]; simp⟩
  | _ :: _, _, _, [] => ⟨_, by rw [KindedValue.conformToTypes]; simp⟩
  | v :: vs, _, h, t :: ts => by
    obtain ⟨_, hv, h⟩ := bind_eq_ok.mp h
    obtain ⟨_, hvs, -⟩ := bind_eq_ok.mp h
    obtain ⟨b, hb⟩ := exists_conformsToType hv t
    rw [KindedValue.conformToTypes, hb]
    cases b with
    | true => exact exists_conformToTypes hvs ts
    | false => exact ⟨_, rfl⟩

end

variable {typeText valueText} {p : ProcState} {index address : Nat} {name : String}
  {initValue : KindedValue} {nextState : Option Nat}

/-- A failing call that leaves the proc as it was, from when it succeeds. -/
theorem unchanged_iff {x : Result ProcState} {after : ProcState} {C : Prop}
    (hpos : C → (∃ q, x = .ok q) ∨ after = p) (hneg : ¬C → (∀ q, x ≠ .ok q) ∧ after ≠ p) :
    (∀ e, x = .error e → after = p) ↔ C := by
  cases x with
  | ok q => exact ⟨fun _ => by_contra fun hC => (hneg hC).1 q rfl, fun _ _ h => by cases h⟩
  | error e =>
    constructor
    · intro h
      by_contra hC
      exact (hneg hC).2 (h e rfl)
    · intro hC _ _
      exact (hpos hC).resolve_left fun ⟨q, hq⟩ => by cases hq

variable {step : Result ProcState} {next : ProcState → ProcState} {param : Nat}

theorem orElse_of_ne_ok (h : ∀ q, step ≠ .ok q) : orElse step p next = p := by
  cases step with
  | ok q => exact absurd rfl (h q)
  | error e => rfl

/-- The checks of a next state pass if its type fits. -/
theorem checkNextState_eq_ok {index : Int} (hgiven : Given p.node initValue nextState) :
    p.checkNextState typeText valueText index initValue nextState = .ok () ↔
      Fits p.node initValue nextState := by
  cases nextState with
  | none => exact ⟨fun _ n data hn => absurd hn nofun, fun _ => rfl⟩
  | some n =>
    obtain ⟨⟨type, htype⟩, hlive⟩ := hgiven
    obtain ⟨data, hdata⟩ := isSome_iff_exists.mp (hlive n rfl)
    obtain ⟨b, hb⟩ := exists_conformsToType htype data.type
    rw [checkNextState, hdata]
    simp only [derefOption, ok_bind, hb]
    cases b with
    | true =>
      refine ⟨fun _ n' data' hn' hdata' => ?_, fun _ => rfl⟩
      cases hn'
      cases hdata.symm.trans hdata'
      exact hb
    | false =>
      constructor
      · intro h
        cases h
      · intro h
        cases hb.symm.trans (h n data rfl hdata)

/-- A node is removed if nothing uses it and it has no implicit use. -/
theorem removeNode_eq_ok {n : Nat} (hlive : (p.node n).isSome = true) {q : ProcState} :
    p.removeNode n = .ok q ↔ (p.NoUsers n ∧ p.hasImplicitUse n = false) ∧ q = { p with
        node := Function.update p.node n none
        params := p.params.filter (· ≠ n) } := by
  obtain ⟨data, hdata⟩ := isSome_iff_exists.mp hlive
  have husers : p.NoUsers n ↔ data.users = [] := by simp [NoUsers, hdata]
  rw [husers, removeNode, hdata]
  constructor
  · intro h
    obtain ⟨_, hderef, h⟩ := bind_eq_ok.mp h
    cases hderef
    obtain ⟨_, hchecked, h⟩ := bind_eq_ok.mp h
    obtain ⟨_, himplicit, h⟩ := bind_eq_ok.mp h
    cases h
    rw [retCheck_eq_ok] at hchecked himplicit
    exact ⟨⟨List.isEmpty_iff.mp hchecked, by simpa using himplicit⟩, rfl⟩
  · rintro ⟨⟨hempty, himplicit⟩, rfl⟩
    simp [derefOption, retCheck, hempty, himplicit]

theorem hasImplicitUse_eq_false {n : Nat} :
    p.hasImplicitUse n = false ↔ ∀ j, j ∉ p.nextStateIndices n := by
  rw [hasImplicitUse, decide_eq_false_iff_not, not_not, Finset.eq_empty_iff_forall_notMem]

theorem clearNext_hasImplicitUse {next : Nat} (hnext : p.nextState[index]? = some next) :
    (p.clearNext index next).hasImplicitUse param = false ↔
      ∀ j ∈ p.nextStateIndices param, p.nextState[index]? = some param ∧ j = index := by
  rw [hasImplicitUse_eq_false]
  refine forall_congr' fun j => ?_
  rw [clearNext, ListIndex.mem_erase, hnext, some.injEq, not_and, not_not]
  grind

theorem eraseNext_hasImplicitUse {next : Nat} (hnext : p.nextState[index]? = some next) :
    (p.eraseNext index next).hasImplicitUse param = false ↔
      ∀ j ∈ p.nextStateIndices param, p.nextState[index]? = some param ∧
        (j = index ∨ j = index + 1 ∧ index + 1 < p.params.length) := by
  rw [hasImplicitUse_eq_false, hnext]
  simp only [eraseNext, ListIndex.mem_erase, some.injEq, not_and]
  split
  · -- the indices after the element have moved down
    simp only [ListIndex.mem_relabel, forall_exists_index, and_imp]
    grind
  · grind

section Congr

variable {node node' : Nat → Option ProcNode} {o : Option ProcNode}

theorem fits_congr (h : ∀ n, nextState = some n → node' n = node n) :
    Fits node' initValue nextState ↔ Fits node initValue nextState :=
  forall_congr' fun n => forall_congr' fun _ => forall_congr' fun hn => by rw [h n hn]

theorem given_congr (h : ∀ n, nextState = some n → node' n = node n)
    (hgiven : Given node initValue nextState) : Given node' initValue nextState :=
  ⟨hgiven.1, fun n hn => h n hn ▸ hgiven.2 n hn⟩

theorem fits_update (h : ∀ n, nextState = some n → n ≠ address) :
    Fits (Function.update node address o) initValue nextState ↔ Fits node initValue nextState :=
  fits_congr fun n hn => Function.update_of_ne (h n hn) _ _

theorem given_update (h : ∀ n, nextState = some n → n ≠ address)
    (hgiven : Given node initValue nextState) :
    Given (Function.update node address o) initValue nextState :=
  given_congr (fun n hn => Function.update_of_ne (h n hn) _ _) hgiven

end Congr

theorem Given.ne (h : Given p.node initValue nextState) (hfree : p.node address = none) :
    ∀ n, nextState = some n → n ≠ address := by
  rintro n hn rfl
  have := h.2 n hn
  rw [hfree] at this
  cases this

theorem not_mem_params (hlive : ∀ n ∈ p.params, (p.node n).isSome = true)
    (hfree : p.node address = none) : address ∉ p.params := by
  intro hmem
  have := hlive address hmem
  rw [hfree] at this
  cases this

theorem makeParam_eq_ok (name : String) (hfree : p.node address = none)
    (hgiven : Given p.node initValue nextState) : ∃ data, p.makeParam address name initValue =
      .ok { p with
        node := Function.update p.node address (some data)
        params := p.params ++ [address] } := by
  obtain ⟨type, htype⟩ := hgiven.1
  refine ⟨⟨name, type, []⟩, ?_⟩
  rw [makeParam, htype, hfree]
  rfl

/-- What insertion and replacement do with the new parameter: it is made and moved to its index
before the next state is looked at. -/
theorem makeParam_check (typeText : IrType → String) (valueText : KindedValue → String)
    (name : String) (hfree : p.node address = none) (hnew : address ∉ p.params)
    (hindex : index ≤ p.params.length) (hgiven : Given p.node initValue nextState) :
    ∃ q : ProcState, (∃ data, q = { p with
        node := Function.update p.node address (some data)
        params := p.params.insertIdx index address }) ∧
      (orElse (p.makeParam address name initValue) p fun p =>
        orElse (p.moveParamToIndex address index) p id) = q ∧
      ∀ last : ProcState → ProcState, ∀ r, (do
        let p ← p.makeParam address name initValue
        let p ← p.moveParamToIndex address index
        p.checkNextState typeText valueText index initValue nextState
        return last p) = .ok r ↔ Fits p.node initValue nextState ∧ r = last q := by
  obtain ⟨data, hmake⟩ := makeParam_eq_ok name hfree hgiven
  have herase : (p.params ++ [address]).erase address = p.params := by
    rw [erase_append_right _ hnew, erase_cons_head, append_nil]
  let q : ProcState := { p with
    node := Function.update p.node address (some data)
    params := p.params.insertIdx index address }
  have hmove : ProcState.moveParamToIndex { p with
      node := Function.update p.node address (some data)
      params := p.params ++ [address] } address index = .ok q := by
    have hlt : (index : Int) < p.params.length + 1 := by omega
    simp [moveParamToIndex, retCheck, hlt, herase, q]
  have hcheck : q.checkNextState typeText valueText index initValue nextState = .ok () ↔
      Fits p.node initValue nextState :=
    (checkNextState_eq_ok (given_update (hgiven.ne hfree) hgiven)).trans
      (fits_update (hgiven.ne hfree))
  refine ⟨q, ⟨_, rfl⟩, by rw [hmake, orElse, hmove]; rfl, fun last r => ?_⟩
  rw [hmake, ok_bind, hmove, ok_bind, ← hcheck]
  cases q.checkNextState typeText valueText index initValue nextState with
  | ok u => exact ⟨fun h => ⟨rfl, (Except.ok.inj h).symm⟩, fun h => h.2 ▸ rfl⟩
  | error e => exact ⟨fun h => (by cases h), fun h => by cases h.1⟩

/-- An insertion has made the parameter when it looks at the next state. -/
theorem insertStateElement_spec (typeText : IrType → String) (valueText : KindedValue → String)
    (name : String) (hfree : p.node address = none) (hnew : address ∉ p.params)
    (hindex : index ≤ p.params.length) (hgiven : Given p.node initValue nextState) :
    ∃ data, (Fits p.node initValue nextState → ∃ q,
      p.insertStateElement typeText valueText index address name initValue nextState = .ok q ∧
        q.params = p.params.insertIdx index address ∧
        q.node = Function.update p.node address (some data) ∧
        q.nextState = p.nextState.insertIdx index (nextState.getD address)) ∧
    (¬Fits p.node initValue nextState → ∀ q,
      p.insertStateElement typeText valueText index address name initValue nextState ≠ .ok q) ∧
    p.afterInsertStateElement index address name initValue = { p with
      node := Function.update p.node address (some data)
      params := p.params.insertIdx index address } := by
  obtain ⟨q, ⟨data, rfl⟩, hafter, hrun⟩ :=
    makeParam_check typeText valueText name hfree hnew hindex hgiven
  have hle : (index : Int) ≤ p.params.length := Nat.cast_le.mpr hindex
  have hrange : retCheck (decide ((index : Int) ≤ p.params.length))
      "index <= GetStateElementCount()" = .ok () := retCheck_eq_ok.mpr (decide_eq_true hle)
  rw [insertStateElement, hrange, ok_bind]
  refine ⟨data, fun hfits => ⟨_, (hrun _ _).mpr ⟨hfits, rfl⟩, rfl, rfl, rfl⟩,
    fun hfits q hq => hfits ((hrun _ _).mp hq).1, ?_⟩
  rw [afterInsertStateElement, if_pos hle, hafter]

/-- With a negative index, an insertion makes the parameter and then fails. -/
theorem insertStateElement_negative {index : Int} (hindex : index < 0) (name : String)
    (hfree : p.node address = none) (hgiven : Given p.node initValue nextState) :
    (∀ q, p.insertStateElement typeText valueText index address name initValue nextState ≠
      .ok q) ∧ (p.afterInsertStateElement index address name initValue).params =
        p.params ++ [address] := by
  obtain ⟨data, hmake⟩ := makeParam_eq_ok name hfree hgiven
  have hmove : ∀ (p : ProcState) q, p.moveParamToIndex address index ≠ .ok q := by
    intro p q h
    obtain ⟨_, hrange, -⟩ := bind_eq_ok.mp h
    rw [retCheck_eq_ok, decide_eq_true_iff] at hrange
    omega
  constructor
  · intro q h
    obtain ⟨_, -, h⟩ := bind_eq_ok.mp h
    obtain ⟨p₁, -, h⟩ := bind_eq_ok.mp h
    obtain ⟨p₂, hp₂, -⟩ := bind_eq_ok.mp h
    exact hmove p₁ p₂ hp₂
  · rw [afterInsertStateElement, if_pos (by omega), hmake, orElse, orElse_of_ne_ok (hmove _)]

/-- A failed insertion leaves the proc as it was if no check fails after the param was added. -/
theorem insertStateElement_unchanged {index : Int} (hp : Valid p) (hfree : p.node address = none)
    (hgiven : Given p.node initValue nextState) :
    (∀ e, p.insertStateElement typeText valueText index address name initValue nextState =
      .error e → p.afterInsertStateElement index address name initValue = p) ↔
    (index ≤ p.params.length → 0 ≤ index ∧ Fits p.node initValue nextState) := by
  by_cases hindex : index ≤ p.params.length
  · rw [imp_iff_right hindex]
    rcases lt_or_ge index 0 with hneg | hnonneg
    · have hnegative : (∀ q, p.insertStateElement typeText valueText index address name initValue
          nextState ≠ .ok q) ∧ _ := insertStateElement_negative hneg name hfree hgiven
      obtain ⟨herr, hafter⟩ := hnegative
      refine unchanged_iff (fun h => absurd h.1 (by omega)) fun _ => ⟨herr, fun heq => ?_⟩
      have hlength := congrArg (fun p => p.params.length) heq
      simp [hafter] at hlength
    · obtain ⟨i, rfl⟩ := Int.eq_ofNat_of_zero_le hnonneg
      rw [Nat.cast_le] at hindex
      obtain ⟨data, hok, herr, hafter⟩ := insertStateElement_spec typeText valueText name
        hfree (not_mem_params hp.live hfree) hindex hgiven
      refine unchanged_iff (fun hfits => .inl ?_) fun hfits => ?_
      · obtain ⟨q, hq, -⟩ := hok hfits.2
        exact ⟨q, hq⟩
      · refine ⟨herr fun h => hfits ⟨hnonneg, h⟩, fun heq => ?_⟩
        have hlength := congrArg (fun p => p.params.length) (hafter.symm.trans heq)
        simp [length_insertIdx, hindex] at hlength
  · exact unchanged_iff (fun _ => .inr (if_neg hindex)) fun h => absurd (absurd · hindex) h

/-! ### Removal -/

/-- When an element is removed, and what the proc is after it. -/
theorem removeStateElement_eq_ok {param next : Nat} {q : ProcState}
    (hlive : (p.node param).isSome = true) (hparam : p.params[index]? = some param)
    (hnext : p.nextState[index]? = some next) :
    p.removeStateElement index = .ok q ↔
      (p.NoUsers param ∧ ∀ j ∈ p.nextStateIndices param, p.nextState[index]? = some param ∧
        (j = index ∨ j = index + 1 ∧ index + 1 < p.params.length)) ∧
        q = { p.eraseNext index next with
          node := Function.update p.node param none
          params := p.params.filter (· ≠ param)
          initValues := p.initValues.eraseIdx index } := by
  have hindex := (List.getElem?_eq_some_iff.mp hparam).1
  obtain ⟨data, hdata⟩ := isSome_iff_exists.mp hlive
  have hremove := fun q => @removeNode_eq_ok (p.eraseNext index next) param hlive q
  simp only [eraseNext_hasImplicitUse hnext] at hremove
  have hrange : retCheck (decide (index < p.params.length)) "index < GetStateElementCount()" =
      .ok () := retCheck_eq_ok.mpr (decide_eq_true hindex)
  have hrun : p.removeStateElement index = if data.users ≠ [] then
      .error (.status (s!"Cannot remove state element {index} of proc {p.name}, existing state " ++
        s!"param {data.name} has uses"))
      else do
        let p' ← (p.eraseNext index next).removeNode param
        return { p' with initValues := p'.initValues.eraseIdx index } := by
    rw [removeStateElement, hrange, ok_bind, hnext]
    simp only [derefOption, ok_bind, hparam, hdata]
    rfl
  rw [hrun]
  split
  · rename_i husers
    constructor
    · intro h
      cases h
    · intro h
      exact absurd (h.1.1 data hdata) husers
  · constructor
    · intro h
      obtain ⟨p', hp', h⟩ := bind_eq_ok.mp h
      obtain ⟨hcheck, rfl⟩ := (hremove _).mp hp'
      cases h
      exact ⟨hcheck, rfl⟩
    · rintro ⟨hcheck, rfl⟩
      rw [(hremove _).mpr ⟨hcheck, rfl⟩]
      rfl

theorem Valid.getElem (hp : Valid p) (hparam : p.params[index]? = some param) :
    ∃ next, p.nextState[index]? = some next := by
  have hindex := (List.getElem?_eq_some_iff.mp hparam).1
  exact ⟨_, getElem?_eq_getElem (hp.nextLength ▸ hindex)⟩

/-- A failed removal leaves the proc as it was exactly under the condition on the call. -/
theorem removeStateElement_unchanged (hp : Valid p) :
    (∀ e, p.removeStateElement index = .error e → p.afterRemoveStateElement index = p) ↔
      p.Unchanged (.remove index) := by
  cases hparam : p.params[index]? with
  | none =>
    have hindex : ¬index < p.params.length := by simpa using hparam
    exact unchanged_iff (fun _ => .inr (if_neg hindex)) fun h =>
      absurd (fun param h' => by cases hparam.symm.trans h') h
  | some param =>
    have hindex := (List.getElem?_eq_some_iff.mp hparam).1
    obtain ⟨next, hnext⟩ := hp.getElem hparam
    have hok := fun q => @removeStateElement_eq_ok p index param next q
      (hp.live param (mem_of_getElem? hparam)) hparam hnext
    refine unchanged_iff (fun h => .inl ⟨_, (hok _).mpr ⟨h param hparam, rfl⟩⟩)
      fun h => ⟨fun q hq => h ?_, fun heq => ?_⟩
    · intro param' hparam'
      cases hparam.symm.trans hparam'
      exact ((hok q).mp hq).1
    · rw [afterRemoveStateElement, if_pos hindex, hnext] at heq
      have hlength := congrArg (fun p => p.nextState.length) heq
      simp only [eraseNext, length_eraseIdx, hp.nextLength, if_pos hindex] at hlength
      omega

/-! ### Replacement of one element -/

theorem orElse_nextState {nexts : List Nat} (hp : p.nextState = nexts)
    (h : ∀ q, step = .ok q → (next q).nextState = nexts) :
    (orElse step p next).nextState = nexts := by
  cases step with
  | ok q => exact h q rfl
  | error e => exact hp

/-- The element that is replaced has lost its next state when a later check fails. -/
theorem afterReplaceStateElement_nextState {next : Nat} (hlive : (p.node param).isSome = true)
    (hparam : p.params[index]? = some param) (hnext : p.nextState[index]? = some next)
    (husers : p.NoUsers param) :
    (p.afterReplaceStateElement index address name initValue).nextState =
      p.nextState.set index null := by
  obtain ⟨data, hdata⟩ := isSome_iff_exists.mp hlive
  simp only [afterReplaceStateElement, hparam, hnext]
  rw [if_pos (by simpa [hdata] using husers data hdata)]
  refine orElse_nextState rfl fun p₂ h₂ => ?_
  have hp₂ : p₂.nextState = p.nextState.set index null := by rw [removeNode_spec h₂]; rfl
  refine orElse_nextState hp₂ fun p₃ h₃ => ?_
  obtain ⟨_, -, h₃⟩ := bind_eq_ok.mp h₃
  obtain ⟨_, -, h₃⟩ := bind_eq_ok.mp h₃
  cases h₃
  refine orElse_nextState hp₂ fun p₄ h₄ => ?_
  obtain ⟨_, -, h₄⟩ := bind_eq_ok.mp h₄
  split at h₄
  · cases h₄
  · cases h₄
    exact hp₂

/-- A failed replacement leaves the proc as it was exactly under the condition on the call. -/
theorem replaceStateElement_unchanged (hp : Valid p)
    (hc : p.Callable (.replaceElement index address name initValue nextState)) :
    (∀ e, p.replaceStateElement typeText valueText index address name initValue nextState =
      .error e → p.afterReplaceStateElement index address name initValue = p) ↔
    p.Unchanged (.replaceElement index address name initValue nextState) := by
  cases hparam : p.params[index]? with
  | none =>
    refine unchanged_iff (fun _ => .inr ?_) fun h =>
      absurd (fun param h' => by cases hparam.symm.trans h') h
    simp [afterReplaceStateElement, hparam]
  | some param =>
    have hindex := (List.getElem?_eq_some_iff.mp hparam).1
    have hmem := mem_of_getElem? hparam
    have hlive := hp.live param hmem
    obtain ⟨next, hnext⟩ := hp.getElem hparam
    obtain ⟨data, hdata⟩ := isSome_iff_exists.mp hlive
    have hiff : p.Unchanged (.replaceElement index address name initValue nextState) ↔
        (p.NoUsers param → (p.clearNext index next).hasImplicitUse param = false ∧
          Fits p.node initValue nextState) := by
      simp [Unchanged, hparam, clearNext_hasImplicitUse hnext]
    rw [hiff]
    by_cases husers : p.NoUsers param
    · rw [imp_iff_right husers]
      obtain ⟨haddress, hgiven, hother⟩ := hc
      have hempty : data.users = [] := husers data hdata
      let p₁ : ProcState := { p with
        nextStateIndices := ListIndex.erase p.nextStateIndices next index }
      let p₂ : ProcState := { p₁ with
        node := Function.update p.node param none
        params := p.params.filter (· ≠ param) }
      have hremove : ∀ q, p₁.removeNode param = .ok q ↔
          (p.clearNext index next).hasImplicitUse param = false ∧ q = p₂ := fun q =>
        (@removeNode_eq_ok p₁ param hlive q).trans (and_congr_left' (and_iff_right husers))
      have hfree : p₂.node address = none := by
        by_cases heq : address = param
        · exact heq ▸ Function.update_self _ _ _
        · refine (Function.update_of_ne heq _ _).trans (haddress.resolve_right fun h => heq ?_)
          rw [hparam] at h
          exact (some.inj h).symm
      have hne : ∀ n, nextState = some n → n ≠ param := fun n hn heq =>
        hother n hn (heq ▸ hparam)
      have hlength := (filter_params hparam hp.nodup hp.live).1
      have hnew : address ∉ p₂.params :=
        not_mem_params (filter_params hparam hp.nodup hp.live).2.2 hfree
      have hgiven₂ : Given p₂.node initValue nextState := given_update hne hgiven
      obtain ⟨q, -, -, hmake⟩ := makeParam_check typeText valueText name hfree hnew
        (by show index ≤ (p.params.filter (· ≠ param)).length; omega) hgiven₂
      rw [fits_update hne] at hmake
      have hrange : retCheck (decide (index < p.params.length)) "index < GetStateElementCount()" =
          .ok () := retCheck_eq_ok.mpr (decide_eq_true hindex)
      have hrun : ∃ last : ProcState → ProcState,
          p.replaceStateElement typeText valueText index address name initValue nextState = (do
            let q ← p₁.removeNode param
            let q ← q.makeParam address name initValue
            let q ← q.moveParamToIndex address index
            q.checkNextState typeText valueText index initValue nextState
            return last q) := by
        rw [replaceStateElement, hrange, ok_bind, hparam]
        simp only [derefOption, ok_bind, hdata, hempty, hnext]
        exact ⟨_, rfl⟩
      obtain ⟨last, hrun⟩ := hrun
      rw [hrun]
      refine unchanged_iff (fun h => .inl ?_) fun h => ⟨fun q hq => h ?_, fun heq => ?_⟩
      · rw [(hremove _).mpr ⟨h.1, rfl⟩]
        exact ⟨_, (hmake _ _).mpr ⟨h.2, rfl⟩⟩
      · obtain ⟨q₂, hq₂, hq⟩ := bind_eq_ok.mp hq
        obtain ⟨himplicit, rfl⟩ := (hremove _).mp hq₂
        exact ⟨himplicit, ((hmake _ _).mp hq).1⟩
      · -- the next state was null
        have hset : (p.afterReplaceStateElement index address name initValue).nextState =
            p.nextState.set index null :=
          afterReplaceStateElement_nextState hlive hparam hnext husers
        rw [heq] at hset
        have hnull := hp.nextLive null (by
          rw [hset]
          exact mem_set (hp.nextLength ▸ hindex) _)
        rw [hp.null] at hnull
        cases hnull
    · refine unchanged_iff (fun _ => .inr ?_) fun h => absurd (absurd · husers) h
      have hsome : ¬data.users = [] := fun h => husers fun d hd => by
        cases hdata.symm.trans hd
        exact h
      simp [afterReplaceStateElement, hparam, hnext, hdata, hsome]

/-! ### Replacement of the state -/

/-- The elements that are appended have the initial values of nodes of the proc. -/
theorem appendAll_unchanged (elements : List (Nat × String × KindedValue × Option Nat))
    {p : ProcState} (hlive : ∀ n ∈ p.params, (p.node n).isSome = true)
    (hlength : p.nextState.length = p.params.length) (hnodup : (elements.map Prod.fst).Nodup)
    (hfree : ∀ e ∈ elements, p.node e.1 = none)
    (hgiven : ∀ e ∈ elements, Given p.node e.2.2.1 e.2.2.2) :
    ((∀ e ∈ elements, Fits p.node e.2.2.1 e.2.2.2) →
      ∃ q, appendAll typeText valueText elements p = .ok q) ∧
    ((¬∀ e ∈ elements, Fits p.node e.2.2.1 e.2.2.2) →
      (∀ q, appendAll typeText valueText elements p ≠ .ok q) ∧
        (afterAppendAll typeText valueText elements p).nextState.length ≠
          (afterAppendAll typeText valueText elements p).params.length) := by
  induction elements generalizing p with
  | nil => exact ⟨fun _ => ⟨p, rfl⟩, fun h => absurd (fun e he => absurd he not_mem_nil) h⟩
  | cons e elements ih =>
    obtain ⟨address, name, initValue, nextState⟩ := e
    rw [map_cons, nodup_cons] at hnodup
    rw [forall_mem_cons] at hfree hgiven ⊢
    obtain ⟨data, hok, herr, hafter⟩ := insertStateElement_spec typeText valueText name
      hfree.1 (not_mem_params hlive hfree.1) le_rfl hgiven.1
    rw [appendAll, afterAppendAll, appendStateElement]
    by_cases hfits : Fits p.node initValue nextState
    · obtain ⟨q, hq, hparams, hnode, hnexts⟩ := hok hfits
      have hmoved := fun e he => (hgiven.2 e he).ne hfree.1
      have hrest := @ih q
        (by
          rw [hparams, hnode, insertIdx_length_self]
          intro n hn
          by_cases heq : n = address
          · rw [heq, Function.update_self]
            rfl
          · rw [Function.update_of_ne heq]
            exact hlive n ((mem_append.mp hn).resolve_right (by simpa using heq)))
        (by rw [hparams, hnexts, ← hlength]; simp [length_insertIdx, hlength])
        hnodup.2
        (fun e he => by
          rw [hnode, Function.update_of_ne fun heq => hnodup.1 (mem_map.mpr ⟨e, he, heq⟩)]
          exact hfree.2 e he)
        (fun e he => hnode ▸ given_update (hmoved e he) (hgiven.2 e he))
      have hsame : (∀ e ∈ elements, Fits q.node e.2.2.1 e.2.2.2) ↔
          ∀ e ∈ elements, Fits p.node e.2.2.1 e.2.2.2 := by
        rw [hnode]
        exact forall₂_congr fun e he => fits_update (hmoved e he)
      rw [hsame] at hrest
      rw [hq, ok_bind, orElse, and_iff_right hfits]
      exact hrest
    · refine ⟨fun h => absurd h.1 hfits, fun _ => ⟨fun q hq => ?_, ?_⟩⟩
      · obtain ⟨q₁, hq₁, -⟩ := bind_eq_ok.mp hq
        exact herr hfits q₁ hq₁
      · rw [orElse_of_ne_ok (herr hfits), hafter]
        simp [hlength]

/-- No parameter has users, and none is the next state of an element before it. -/
def Removable (p : ProcState) : Prop :=
  ∀ i param, p.params[i]? = some param → p.NoUsers param ∧
    ∀ j ∈ p.nextStateIndices param, i ≤ j ∧ p.nextState[j]? = some param

/-- The last element is removed first. -/
theorem removable_append {l ns : List Nat} {a b : Nat} {q : ProcState}
    (hlength : ns.length = l.length) (hparams : p.params = l ++ [a])
    (hnexts : p.nextState = ns ++ [b]) (ha : a ∉ l) (hq : q.params = l) (hqnexts : q.nextState = ns)
    (hnode : q.node = Function.update p.node a none)
    (hindex : q.nextStateIndices = ListIndex.erase p.nextStateIndices b l.length) :
    p.Removable ↔
      (p.NoUsers a ∧ ∀ j ∈ p.nextStateIndices a, b = a ∧ j = l.length) ∧ q.Removable := by
  have husers : ∀ n ∈ l, (q.NoUsers n ↔ p.NoUsers n) := by
    intro n hn
    have hne : n ≠ a := fun h => ha (h ▸ hn)
    rw [NoUsers, NoUsers, hnode, Function.update_of_ne hne]
  simp only [Removable, hparams, hnexts, hq, hqnexts, hindex, ListIndex.mem_erase]
  constructor
  · intro h
    have hlast := h l.length a (by simp)
    refine ⟨⟨hlast.1, fun j hj => ?_⟩, fun i n hi => ?_⟩
    · have hj := hlast.2 j hj
      grind
    · have hmem := mem_of_getElem? hi
      have hlt := (List.getElem?_eq_some_iff.mp hi).1
      have hn := h i n (by rw [getElem?_append_left hlt, hi])
      refine ⟨(husers n hmem).mpr hn.1, fun j hj => ?_⟩
      have hj' := hn.2 j hj.1
      grind
  · rintro ⟨⟨hlast, hindexA⟩, hrest⟩ i n hi
    by_cases hlt : i < l.length
    · rw [getElem?_append_left hlt] at hi
      have hn := hrest i n hi
      refine ⟨(husers n (mem_of_getElem? hi)).mp hn.1, fun j hj => ?_⟩
      by_cases hend : n = b ∧ j = l.length
      · refine ⟨by omega, ?_⟩
        rw [hend.1, hend.2, ← hlength, getElem?_concat_length]
      · obtain ⟨hle, hnext⟩ := hn.2 j ⟨hj, hend⟩
        rw [getElem?_append_left (List.getElem?_eq_some_iff.mp hnext).1]
        exact ⟨hle, hnext⟩
    · obtain ⟨rfl, rfl⟩ : n = a ∧ i = l.length := by grind
      refine ⟨hlast, fun j hj => ?_⟩
      have hj' := hindexA j hj
      grind

/-- Removing all elements ends with an empty state if the params can be removed. -/
theorem removeAll_unchanged (count : Nat) {p : ProcState} (hcount : p.params.length = count)
    (hlive : ∀ n ∈ p.params, (p.node n).isSome = true)
    (hlength : p.nextState.length = p.params.length) (hnodup : p.params.Nodup) :
    (p.Removable → ∃ q, removeAll count p = .ok q) ∧
    (∀ q, removeAll count p = .ok q → q.params = [] ∧ q.nextState = [] ∧
      ∀ n, q.node n = if n ∈ p.params then none else p.node n) ∧
    (¬p.Removable → (∀ q, removeAll count p ≠ .ok q) ∧
      (afterRemoveAll count p).nextState.length ≠ (afterRemoveAll count p).params.length) := by
  induction count generalizing p with
  | zero =>
    have hnil := length_eq_zero_iff.mp hcount
    refine ⟨fun _ => ⟨p, rfl⟩, fun q hq => ?_, fun h => absurd (fun i n hi => ?_) h⟩
    · cases hq
      exact ⟨hnil, length_eq_zero_iff.mp (hlength.trans hcount), fun n => by simp [hnil]⟩
    · simp [hnil] at hi
  | succ count ih =>
    obtain ⟨l, a, hparams⟩ := (eq_nil_or_concat p.params).resolve_left fun h => by
      rw [h] at hcount
      cases hcount
    obtain ⟨ns, b, hnexts⟩ := (eq_nil_or_concat p.nextState).resolve_left fun h => by
      rw [h, hcount] at hlength
      cases hlength
    rw [concat_eq_append] at hparams hnexts
    have hl : l.length = count := by simpa [hparams] using hcount
    have hns : ns.length = l.length := by simpa [hparams, hnexts] using hlength
    rw [hparams, nodup_append] at hnodup
    have ha : a ∉ l := fun h => hnodup.2.2 a h a (mem_singleton_self a) rfl
    have hb : p.nextState[count]? = some b := by
      rw [hnexts, ← hl, ← hns, getElem?_concat_length]
    have hok := fun q => @removeStateElement_eq_ok p count a b q (hlive a (by simp [hparams]))
      (by rw [hparams, ← hl, getElem?_concat_length]) hb
    simp only [hb, some.injEq, hcount, lt_irrefl, and_false, or_false] at hok
    have herase : (p.eraseNext count b).nextStateIndices =
        ListIndex.erase p.nextStateIndices b count := by
      simp [eraseNext, hcount]
    have hnextState : (p.eraseNext count b).nextState = ns := by
      simp [eraseNext, hnexts, ← hl, ← hns, eraseIdx_append_of_length_le]
    have hfilter : p.params.filter (· ≠ a) = l := by
      have hne : ∀ n ∈ l, n ≠ a := fun n hn h => ha (h ▸ hn)
      simpa [hparams, filter_append] using hne
    let q : ProcState := { p.eraseNext count b with
      node := Function.update p.node a none
      params := l
      initValues := p.initValues.eraseIdx count }
    have hiff := @removable_append p l ns a b q hns hparams hnexts ha rfl hnextState rfl
      (hl ▸ herase)
    rw [hl] at hiff
    by_cases hlast : p.NoUsers a ∧ ∀ j ∈ p.nextStateIndices a, b = a ∧ j = count
    · have hq : p.removeStateElement count = .ok q := (hok q).mpr ⟨hlast, by simp only [hfilter, q]⟩
      rw [and_iff_right hlast] at hiff
      have hnode : ∀ n, n ≠ a → q.node n = p.node n := fun n hn => Function.update_of_ne hn _ _
      have hrest := @ih q hl
        (fun n hn => by
          rw [hnode n fun h => ha (h ▸ hn)]
          exact hlive n (by rw [hparams]; exact mem_append_left _ hn))
        (by show (p.eraseNext count b).nextState.length = l.length; rw [hnextState, hns])
        hnodup.1
      rw [hiff, removeAll, afterRemoveAll, hq, ok_bind, orElse]
      refine ⟨hrest.1, fun q' hq' => ?_, hrest.2.2⟩
      obtain ⟨hempty, hnone, hnodes⟩ := hrest.2.1 q' hq'
      refine ⟨hempty, hnone, fun n => ?_⟩
      rw [hnodes, hparams]
      by_cases hn : n = a
      · simp [hn, q]
      · simp [hn, q]
    · have hnot : ∀ q', p.removeStateElement count ≠ .ok q' := fun q' h => hlast ((hok q').mp h).1
      have hno : ∀ q', removeAll (count + 1) p ≠ .ok q' := fun q' h => by
        obtain ⟨q₁, hq₁, -⟩ := bind_eq_ok.mp h
        exact hnot q₁ hq₁
      refine ⟨fun h => absurd (hiff.mp h).1 hlast, fun q' h => absurd h (hno q'),
        fun _ => ⟨hno, ?_⟩⟩
      have hstop : afterRemoveAll (count + 1) p = p.eraseNext count b := by
        rw [afterRemoveAll, orElse_of_ne_ok hnot, afterRemoveStateElement, if_pos (by omega), hb]
      rw [hstop, hnextState, hns, hl]
      show count ≠ p.params.length
      omega

/-- The replacement of the state removes all elements and appends the new ones. -/
theorem replaceState_eq (addresses : List Nat) (names : List String)
    (initValues : List KindedValue) (nextState : Option (List Nat)) :
    match newElements addresses names initValues nextState with
    | none => ∀ q, p.replaceState typeText valueText addresses names initValues nextState ≠ .ok q
    | some elements =>
      p.replaceState typeText valueText addresses names initValues nextState =
        removeAll p.params.length p >>= appendAll typeText valueText elements := by
  have hstop : ∀ {message q}, (removeAll p.params.length p >>= fun _ =>
      (.error (.status message) : Result ProcState)) ≠ .ok q := by
    intro message q h
    obtain ⟨_, -, h⟩ := bind_eq_ok.mp h
    cases h
  cases nextState with
  | none =>
    rw [newElements]
    by_cases h : names.length ≠ initValues.length
    · simp only [replaceState, if_pos h]
      exact fun q => hstop
    · simp only [replaceState, if_neg h]
  | some nextState =>
    rw [newElements]
    by_cases h : names.length ≠ nextState.length ∨ names.length ≠ initValues.length
    · simp only [replaceState, if_pos h]
      exact fun q => hstop
    · simp only [replaceState, if_neg h]

/-- A failed replacement of the state leaves the proc as it was exactly under the condition. -/
theorem replaceState_unchanged (hp : Valid p) {addresses : List Nat} {names : List String}
    {initValues : List KindedValue} {nextState : Option (List Nat)}
    (hc : p.Callable (.replace addresses names initValues nextState)) :
    (∀ e, p.replaceState typeText valueText addresses names initValues nextState = .error e →
      p.afterFailure typeText valueText (.replace addresses names initValues nextState) = p) ↔
    p.Unchanged (.replace addresses names initValues nextState) := by
  have heq := @replaceState_eq typeText valueText p addresses names initValues nextState
  obtain ⟨hok, hspec, herr⟩ :=
    removeAll_unchanged p.params.length rfl hp.live hp.nextLength hp.nodup
  simp only [Callable] at hc
  by_cases hremovable : p.Removable
  · obtain ⟨q, hq⟩ := hok hremovable
    obtain ⟨hparams, hnexts, hnode⟩ := hspec q hq
    simp only [afterFailure, hq, orElse, Unchanged]
    split at heq
    · rename_i hnew
      refine unchanged_iff (fun hnil => .inr ?_) fun hne => ⟨heq, fun hqp => hne (hqp ▸ hparams)⟩
      rw [hnil] at hq
      exact (Except.ok.inj hq).symm
    · rename_i elements hnew
      obtain ⟨hnodup, helements⟩ := hc elements hnew
      have hsame : ∀ e ∈ elements, ∀ n, e.2.2.2 = some n → q.node n = p.node n :=
        fun e he n hn => by rw [hnode, if_neg ((helements e he).2.2 n hn)]
      obtain ⟨happend, hfail⟩ := @appendAll_unchanged typeText valueText elements q
        (by simp [hparams]) (by rw [hparams, hnexts]) hnodup
        (fun e he => by
          rw [hnode]
          split
          · rfl
          · exact (helements e he).1.resolve_right ‹_›)
        fun e he => given_congr (hsame e he) (helements e he).2.1
      rw [forall₂_congr fun e he => fits_congr (hsame e he)] at happend hfail
      rw [heq, hq, ok_bind]
      refine unchanged_iff (fun h => .inl (happend h.2)) fun h => ?_
      obtain ⟨hno, hlength⟩ := hfail fun h' => h ⟨hremovable, h'⟩
      exact ⟨hno, fun hqp => hlength (hqp.symm ▸ hp.nextLength)⟩
  · obtain ⟨hno, hlength⟩ := herr hremovable
    have hafter : p.afterFailure typeText valueText
        (.replace addresses names initValues nextState) = afterRemoveAll p.params.length p := by
      rw [afterFailure, orElse_of_ne_ok hno]
    have hfalse : ¬p.Unchanged (.replace addresses names initValues nextState) := by
      simp only [Unchanged]
      split
      · intro hnil
        exact hremovable fun i n hi => by simp [hnil] at hi
      · exact fun h => hremovable h.1
    refine unchanged_iff (fun h => absurd h hfalse) fun _ => ⟨fun q hq => ?_, fun hqp => ?_⟩
    · split at heq
      · exact heq q hq
      · rw [heq] at hq
        obtain ⟨q₁, hq₁, -⟩ := bind_eq_ok.mp hq
        exact hno q₁ hq₁
    · rw [hafter] at hqp
      exact hlength (hqp.symm ▸ hp.nextLength)

/-- A failing call leaves the proc as it was exactly when the condition holds. -/
theorem afterFailure_eq_iff (typeText : IrType → String) (valueText : KindedValue → String)
    {p : ProcState} (hp : p.Valid) {c : Call} (hc : p.Callable c) :
    (∀ e, p.call typeText valueText c = .error e → p.afterFailure typeText valueText c = p) ↔
      p.Unchanged c := by
  cases c with
  | append address name initValue nextState =>
    refine (insertStateElement_unchanged hp hc.1 hc.2).trans ?_
    rw [imp_iff_right le_rfl, and_iff_right (Int.natCast_nonneg _)]
    exact Iff.rfl
  | insert index address name initValue nextState =>
    exact insertStateElement_unchanged hp hc.1 hc.2
  | replaceElement index address name initValue nextState =>
    exact replaceStateElement_unchanged hp hc
  | remove index => exact removeStateElement_unchanged hp
  | replace addresses names initValues nextState => exact replaceState_unchanged hp hc
  | _ => exact ⟨fun _ => trivial, fun _ _ _ => rfl⟩

/-- A proc with an element that has a user. -/
def used : ProcState where
  name := "p"
  node n := if n = 1 then some ⟨"s", .bits 1, [2]⟩ else if n = 2 then some ⟨"n", .bits 1, []⟩
    else none
  params := [1]
  initValues := [.bits (Bits.ofNat 1 0)]
  nextState := [2]
  nextStateIndices n := if n = 2 then {0} else ∅

theorem valid_used : Valid used where
  nextLength := rfl
  nodup := nodup_singleton 1
  live n hn := by simp [used, mem_singleton.mp hn]
  nextLive n hn := by simp [used, mem_singleton.mp hn]
  null := rfl

/-- The element cannot be removed, but its next state is. -/
theorem afterFailure_used : Valid used ∧ used.Callable (.remove 0) ∧
    ∃ e, used.call (fun _ => "") (fun _ => "") (.remove 0) = .error e ∧
      (used.afterFailure (fun _ => "") (fun _ => "") (.remove 0)).nextState ≠ used.nextState :=
  ⟨valid_used, trivial, _, rfl, by decide⟩

theorem afterFailure_eq_iff_used :
    used.afterFailure (fun _ => "") (fun _ => "") (.remove 1) = used :=
  (afterFailure_eq_iff (c := .remove 1) _ _ valid_used trivial).mpr (fun _ h => by cases h) _ rfl

end Xls.ProcState

import Xls.ProcState

/-!
# Xls.ProcState.Inverse

The index of the next state is the inverse of the next state, over any run of calls in which
no element is removed before one with the same next state (`inverseIndex_of_allMeet`).
-/

namespace Xls.ProcState

open ListIndex Result

/-- The state elements and their index fit together. -/
structure Consistent (p : ProcState) : Prop where
  index : IsIndex p.nextStateIndices p.nextState
  initLength : p.initValues.length = p.params.length
  nextLength : p.nextState.length = p.params.length
  nodup : p.params.Nodup
  live : ∀ n ∈ p.params, (p.node n).isSome = true

variable {typeText : IrType → String} {valueText : KindedValue → String} {p q : ProcState}

theorem consistent_new (name : String) : Consistent (new name) where
  index := isIndex_nil
  initLength := rfl
  nextLength := rfl
  nodup := List.nodup_nil
  live _ hn := nomatch hn

/-! ### Nodes and parameters -/

theorem retCheck_eq_ok {cond : Bool} {text : String} {u : Unit} :
    retCheck cond text = .ok u ↔ cond = true := by
  cases cond <;> simp [retCheck]

theorem removeNode_spec {n : Nat} (h : p.removeNode n = .ok q) :
    q = { p with
      node := Function.update p.node n none
      params := p.params.filter (· ≠ n) } := by
  obtain ⟨data, -, h⟩ := bind_eq_ok.mp h
  obtain ⟨-, -, h⟩ := bind_eq_ok.mp h
  obtain ⟨-, -, h⟩ := bind_eq_ok.mp h
  cases h
  rfl

variable {address index : Nat} {name : String} {initValue : KindedValue}

/-- A new parameter that is moved to its index. -/
theorem makeParam_move_spec {p₁ : ProcState} {index : Int}
    (hlive : ∀ n ∈ p.params, (p.node n).isSome = true)
    (h₁ : p.makeParam address name initValue = .ok p₁)
    (h : p₁.moveParamToIndex address index = .ok q) :
    0 ≤ index ∧ address ∉ p.params ∧ ∃ data, q = { p with
      node := Function.update p.node address (some data)
      params := p.params.insertIdx index.toNat address } := by
  obtain ⟨type, -, h₁⟩ := bind_eq_ok.mp h₁
  obtain ⟨_, hfree, h₁⟩ := bind_eq_ok.mp h₁
  rw [checkThat_eq_ok, Option.isNone_iff_eq_none] at hfree
  cases h₁
  have hnew : address ∉ p.params := by
    intro hmem
    have := hlive address hmem
    rw [hfree] at this
    cases this
  obtain ⟨_, hindex, h⟩ := bind_eq_ok.mp h
  rw [retCheck_eq_ok, decide_eq_true_iff] at hindex
  split at h
  · cases h
  · cases h
    refine ⟨hindex.1, hnew, ⟨name, type, []⟩, ?_⟩
    have herase : (p.params ++ [address]).erase address = p.params := by
      rw [List.erase_append_right _ hnew, List.erase_cons_head, List.append_nil]
    simp only [herase]

variable {params : List Nat} {node : Nat → Option ProcNode} {nextState : Option Nat}

/-- A new parameter keeps the parameters apart. -/
theorem insertIdx_params (index : Nat) (data : ProcNode) (hindex : index ≤ params.length)
    (hnodup : params.Nodup) (hnew : address ∉ params)
    (hlive : ∀ n ∈ params, (node n).isSome = true) :
    (params.insertIdx index address).length = params.length + 1 ∧
      (params.insertIdx index address).Nodup ∧ ∀ n ∈ params.insertIdx index address,
        (Function.update node address (some data) n).isSome = true := by
  have hperm := List.perm_insertIdx address params hindex
  refine ⟨by rw [hperm.length_eq, List.length_cons], hperm.nodup_iff.mpr
    (List.nodup_cons.mpr ⟨hnew, hnodup⟩), fun n hn => ?_⟩
  by_cases heq : n = address
  · rw [heq, Function.update_self]
    rfl
  · rw [Function.update_of_ne heq]
    rcases List.mem_cons.mp (hperm.mem_iff.mp hn) with hn | hn
    · exact absurd hn heq
    · exact hlive n hn

/-- A removed parameter leaves the others. -/
theorem filter_params {param : Nat} (hparam : params[index]? = some param) (hnodup : params.Nodup)
    (hlive : ∀ n ∈ params, (node n).isSome = true) :
    (params.filter (· ≠ param)).length + 1 = params.length ∧ (params.filter (· ≠ param)).Nodup ∧
      ∀ n ∈ params.filter (· ≠ param), (Function.update node param none n).isSome = true := by
  have hmem : param ∈ params := List.mem_of_getElem? hparam
  have hpos : 0 < params.length := List.length_pos_of_mem hmem
  refine ⟨?_, hnodup.filter _, fun n hn => ?_⟩
  · have hlength := List.length_erase_of_mem hmem
    rw [hnodup.erase_eq_filter] at hlength
    have heq : (params.filter (· != param)) = params.filter (· ≠ param) :=
      List.filter_congr fun n _ => by simp [bne, beq_eq_decide]
    rw [← heq]
    omega
  · obtain ⟨hn, hne⟩ := List.mem_filter.mp hn
    rw [Function.update_of_ne (of_decide_eq_true hne)]
    exact hlive n hn

/-! ### The calls -/

/-- Setting a next state keeps the index of next states. -/
theorem setNextStateElement_consistent {next : Nat} (hp : Consistent p)
    (h : p.setNextStateElement typeText index next = .ok q) : Consistent q := by
  obtain ⟨data, -, h⟩ := bind_eq_ok.mp h
  obtain ⟨param, -, h⟩ := bind_eq_ok.mp h
  obtain ⟨paramData, -, h⟩ := bind_eq_ok.mp h
  split at h
  · cases h
  · obtain ⟨old, hold, h⟩ := bind_eq_ok.mp h
    rw [derefOption_eq_ok] at hold
    cases h
    exact ⟨hp.index.set hold next, hp.initLength, (List.length_set ..).trans hp.nextLength,
      hp.nodup, hp.live⟩

/-- Replacing an element keeps the index of next states. -/
theorem replaceStateElement_consistent (hp : Consistent p)
    (h : p.replaceStateElement typeText valueText index address name initValue nextState = .ok q) :
    Consistent q := by
  obtain ⟨_, hindex, h⟩ := bind_eq_ok.mp h
  rw [retCheck_eq_ok, decide_eq_true_iff] at hindex
  obtain ⟨oldParam, holdParam, h⟩ := bind_eq_ok.mp h
  rw [derefOption_eq_ok] at holdParam
  obtain ⟨oldData, -, h⟩ := bind_eq_ok.mp h
  split at h
  · cases h
  · obtain ⟨old, hold, h⟩ := bind_eq_ok.mp h
    rw [derefOption_eq_ok] at hold
    obtain ⟨p₁, hremove, h⟩ := bind_eq_ok.mp h
    obtain ⟨p₂, hmake, h⟩ := bind_eq_ok.mp h
    obtain ⟨p₃, hmove, h⟩ := bind_eq_ok.mp h
    obtain ⟨-, -, h⟩ := bind_eq_ok.mp h
    cases h
    rw [removeNode_spec hremove] at hmake
    obtain ⟨hlength, hnodup, hlive⟩ := filter_params holdParam hp.nodup hp.live
    obtain ⟨-, hnew, data, hp₃⟩ := makeParam_move_spec hlive hmake hmove
    rw [Int.toNat_natCast] at hp₃
    obtain ⟨hlength', hnodup', hlive'⟩ :=
      insertIdx_params index data (by omega) hnodup hnew hlive
    rw [hp₃]
    refine ⟨hp.index.set hold _, ?_, ?_, hnodup', hlive'⟩
    · simp only [List.length_set]
      have := hp.initLength
      omega
    · simp only [List.length_set]
      have := hp.nextLength
      omega

/-- A removal keeps the index if and only if the next element has another next state. -/
theorem removeStateElement_spec (hp : Consistent p) (h : p.removeStateElement index = .ok q) :
    (Consistent q ↔ (index + 1 < p.params.length → p.nextState[index]? ≠ p.nextState[index + 1]?)) ∧
      q.params.length + 1 = p.params.length := by
  obtain ⟨_, hindex, h⟩ := bind_eq_ok.mp h
  rw [retCheck_eq_ok, decide_eq_true_iff] at hindex
  obtain ⟨next, hnext, h⟩ := bind_eq_ok.mp h
  rw [derefOption_eq_ok] at hnext
  obtain ⟨oldParam, holdParam, h⟩ := bind_eq_ok.mp h
  rw [derefOption_eq_ok] at holdParam
  obtain ⟨oldData, -, h⟩ := bind_eq_ok.mp h
  split at h
  · cases h
  · obtain ⟨p₁, hremove, h⟩ := bind_eq_ok.mp h
    cases h
    rw [removeNode_spec hremove]
    obtain ⟨hfilter, hnodup, hlive⟩ := filter_params holdParam hp.nodup hp.live
    have hlength : (p.params.filter (· ≠ oldParam)).length + 1 = p.params.length := hfilter
    refine ⟨?_, hlength⟩
    have hinit : (p.initValues.eraseIdx index).length =
      (p.params.filter (· ≠ oldParam)).length := by
      have := hp.initLength
      rw [List.length_eraseIdx_of_lt (by omega)]
      omega
    have hnextLength : (p.nextState.eraseIdx index).length =
        (p.params.filter (· ≠ oldParam)).length := by
      have := hp.nextLength
      rw [List.length_eraseIdx_of_lt (by omega)]
      omega
    have hiff : IsIndex (erase (if index + 1 < p.params.length then
          relabel p.nextStateIndices fun i => if i ≤ index then i else i - 1
        else p.nextStateIndices) next index) (p.nextState.eraseIdx index) ↔
        (index + 1 < p.params.length → p.nextState[index]? ≠ p.nextState[index + 1]?) := by
      by_cases hlt : index + 1 < p.params.length
      · rw [if_pos hlt, hp.index.eraseIdx_iff hnext, hnext]
        exact ⟨fun hne _ heq => hne heq.symm, fun hne heq => hne hlt heq.symm⟩
      · rw [if_neg hlt]
        refine iff_of_true ?_ fun hlt' => absurd hlt' hlt
        exact hp.index.eraseIdx_last hnext (by rw [hp.nextLength]; omega)
    rw [← hiff]
    exact ⟨fun hq => hq.index, fun hindex => ⟨hindex, hinit, hnextLength, hnodup, hlive⟩⟩

/-- Inserting an element keeps the index of next states. -/
theorem insertStateElement_consistent {index : Int} (hp : Consistent p)
    (h : p.insertStateElement typeText valueText index address name initValue nextState = .ok q) :
    Consistent q := by
  obtain ⟨_, hindex, h⟩ := bind_eq_ok.mp h
  rw [retCheck_eq_ok, decide_eq_true_iff] at hindex
  obtain ⟨p₁, hmake, h⟩ := bind_eq_ok.mp h
  obtain ⟨p₂, hmove, h⟩ := bind_eq_ok.mp h
  obtain ⟨-, -, h⟩ := bind_eq_ok.mp h
  cases h
  obtain ⟨hnonneg, hnew, data, hp₂⟩ := makeParam_move_spec hp.live hmake hmove
  obtain ⟨i, rfl⟩ := Int.eq_ofNat_of_zero_le hnonneg
  rw [Nat.cast_le] at hindex
  rw [Int.toNat_natCast] at hp₂ ⊢
  obtain ⟨hlength, hnodup, hlive⟩ := insertIdx_params i data hindex hp.nodup hnew hp.live
  rw [hp₂, insertNext]
  refine ⟨?_, ?_, ?_, hnodup, hlive⟩
  · have hle : i ≤ p.nextState.length := by rw [hp.nextLength]; exact hindex
    by_cases happend : i = p.params.length
    · have hlast : i = p.nextState.length := happend.trans hp.nextLength.symm
      simp only [happend, decide_true, if_true]
      rw [← happend, hlast, List.insertIdx_length_self]
      exact hp.index.append _
    · simp only [Nat.cast_inj, happend, decide_false, Bool.false_eq_true, if_false]
      exact hp.index.insertIdx hle _
  · have := hp.initLength
    simp only [hlength, List.length_insertIdx]
    rw [if_pos (by omega)]
    omega
  · have := hp.nextLength
    simp only [hlength, List.length_insertIdx]
    rw [if_pos (by omega)]
    omega

/-- Removing all elements keeps the index of next states. -/
theorem removeAll_consistent (count : Nat) (hp : Consistent p) (hcount : p.params.length = count)
    (h : removeAll count p = .ok q) : Consistent q := by
  induction count generalizing p with
  | zero =>
    cases h
    exact hp
  | succ count ih =>
    obtain ⟨p₁, hremove, h⟩ := bind_eq_ok.mp h
    obtain ⟨hiff, hlength⟩ := removeStateElement_spec hp hremove
    -- The element is the last one, so no index collapses.
    exact ih (hiff.mpr fun hlt => absurd hlt (by omega)) (by omega) h

theorem appendAll_consistent (elements : List (Nat × String × KindedValue × Option Nat))
    {p : ProcState} (hp : Consistent p)
    (h : appendAll typeText valueText elements p = .ok q) : Consistent q := by
  induction elements generalizing p with
  | nil =>
    cases h
    exact hp
  | cons element rest ih =>
    obtain ⟨address, name, initValue, nextState⟩ := element
    obtain ⟨p₁, happend, h⟩ := bind_eq_ok.mp h
    exact ih (insertStateElement_consistent hp happend) h

theorem replaceState_consistent {addresses : List Nat} {names : List String}
    {initValues : List KindedValue} {nextState : Option (List Nat)} (hp : Consistent p)
    (h : p.replaceState typeText valueText addresses names initValues nextState = .ok q) :
    Consistent q := by
  obtain ⟨p₁, hremove, h⟩ := bind_eq_ok.mp h
  have hp₁ := removeAll_consistent _ hp rfl hremove
  cases nextState with
  | _ =>
    simp only at h
    split at h
    · cases h
    · exact appendAll_consistent _ hp₁ h

/-! ### Runs -/

/-- A removed element is the last one or stands before one with another next state. -/
def Meets (p : ProcState) : Call → Prop
  | .remove index =>
    index + 1 < p.params.length → p.nextState[index]? ≠ p.nextState[index + 1]?
  | _ => True

/-- The calls of a run all meet the condition, in the states in which they are made. -/
def AllMeet (typeText : IrType → String) (valueText : KindedValue → String) :
    ProcState → List Call → Prop
  | _, [] => True
  | p, c :: rest => Meets p c ∧
      ∀ q, p.call typeText valueText c = .ok q → AllMeet typeText valueText q rest

/-- The index is the inverse of the next state, and the lists have equal lengths. -/
structure InverseIndex (p : ProcState) : Prop where
  index : ∀ n i, i ∈ p.nextStateIndices n ↔ p.nextState[i]? = some n
  implicitUse : ∀ n, p.hasImplicitUse n = true ↔ n ∈ p.nextState
  initLength : p.initValues.length = p.params.length
  nextLength : p.nextState.length = p.params.length

theorem Consistent.inverseIndex (hp : Consistent p) : InverseIndex p where
  index := hp.index
  implicitUse n := by
    rw [hasImplicitUse, decide_eq_true_iff, Ne, ← Finset.not_nonempty_iff_eq_empty, not_not,
      List.mem_iff_getElem?]
    exact exists_congr fun i => hp.index n i
  initLength := hp.initLength
  nextLength := hp.nextLength

/-- Any call that meets the condition keeps the index of next states. -/
theorem call_consistent {c : Call} (hp : Consistent p) (hmeets : Meets p c)
    (h : p.call typeText valueText c = .ok q) : Consistent q := by
  cases c with
  | setNext index next => exact setNextStateElement_consistent hp h
  | replaceElement index address name initValue nextState =>
    exact replaceStateElement_consistent hp h
  | remove index => exact (removeStateElement_spec hp h).1.mpr hmeets
  | replace addresses names initValues nextState => exact replaceState_consistent hp h
  | editNodes node =>
    obtain ⟨_, hlive, h⟩ := bind_eq_ok.mp h
    rw [checkThat_eq_ok, List.all_eq_true] at hlive
    cases h
    exact ⟨hp.index, hp.initLength, hp.nextLength, hp.nodup, hlive⟩
  | _ => exact insertStateElement_consistent hp h

theorem run_consistent (calls : List Call) {p : ProcState} (hp : Consistent p)
    (hmeets : AllMeet typeText valueText p calls) (h : p.run typeText valueText calls = .ok q) :
    Consistent q := by
  induction calls generalizing p with
  | nil =>
    cases h
    exact hp
  | cons c rest ih =>
    obtain ⟨p₁, hcall, h⟩ := bind_eq_ok.mp h
    exact ih (call_consistent hp hmeets.1 hcall) (hmeets.2 p₁ hcall) h

/-- In a run of calls that all meet the condition, the index is the inverse of the next state. -/
theorem inverseIndex_of_allMeet (typeText : IrType → String) (valueText : KindedValue → String)
    (name : String) (calls : List Call) (q : ProcState)
    (hmeets : AllMeet typeText valueText (new name) calls)
    (h : (new name).run typeText valueText calls = .ok q) : InverseIndex q :=
  (run_consistent calls (consistent_new name) hmeets h).inverseIndex

/-- Two elements of one bit. -/
def twoElements : List Call :=
  [.append 0 "a" (.bits (Bits.ofNat 1 0)) none, .append 1 "b" (.bits (Bits.ofNat 1 0)) none]

theorem inverseIndex_of_allMeet_twoElements : ∃ q,
    (new "p").run (fun _ => "") (fun _ => "") (twoElements ++ [.remove 0]) = .ok q ∧
      InverseIndex q := by
  have hmeets : AllMeet (fun _ => "") (fun _ => "") (new "p") (twoElements ++ [.remove 0]) := by
    simp only [twoElements, List.cons_append, List.nil_append, AllMeet]
    refine ⟨trivial, fun q₁ h₁ => ⟨trivial, fun q₂ h₂ => ⟨?_, fun _ _ => trivial⟩⟩⟩
    cases h₁
    cases h₂
    exact fun _ => by decide
  exact ⟨_, rfl, inverseIndex_of_allMeet (fun _ => "") (fun _ => "") "p" _ _ hmeets rfl⟩

/-- Both elements have the second parameter as their next state; when the first is removed, the
index loses the second. -/
theorem not_inverseIndex_sharedNextState : ∃ q,
    (new "p").run (fun _ => "") (fun _ => "") (twoElements ++ [.setNext 0 1, .remove 0]) = .ok q ∧
      ¬InverseIndex q := by
  refine ⟨_, rfl, fun h => ?_⟩
  have huse := (h.implicitUse 1).mpr (by decide)
  revert huse
  decide

end Xls.ProcState

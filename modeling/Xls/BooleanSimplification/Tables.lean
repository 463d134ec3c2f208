import Xls.BooleanSimplification
import Xls.OneBitMux.Sound

/-!
# Xls.BooleanSimplification.Tables

A row of a truth table is a position of a word: bitwise operations act alike on the bits of
the words at the frontier and on the vectors of the table (`Lifts`). So the replacement that
a table makes is worth what the table says, at every position (`ensures_createReplacement`),
and every table that the pass looks up is the table of its operation.
-/

namespace Xls

open List Bits Bool
open Graph (World)
open Graph.World

namespace BooleanSimplification

/-! ### Bitwise operations -/

/-- A bitwise operation on truth values. -/
def truth (op : NaryOp) (ps : List Bool) : Bool :=
  match op with
  | .and => ps.foldl and true
  | .or => ps.foldl or false
  | .xor => ps.foldl xor false
  | .nand => !ps.foldl and true
  | .nor => !ps.foldl or false

/-- A bitwise operation on several operands, at one position. -/
theorem naryFold_get {F : Bits → Bits → Bits} {f : Bool → Bool → Bool}
    (hwidth : ∀ a b, (F a b).width = a.width)
    (hget : ∀ {a b : Bits} {i : Nat}, i < a.width → (F a b).get i = f (a.get i) (b.get i))
    {x : Bits} {xs : List Bits} (h : ∀ y ∈ xs, y.width = x.width) :
    ∃ r, Interpreter.naryFold F (x :: xs) = .ok r ∧ r.width = x.width ∧
      ∀ i < x.width, r.get i = (xs.map fun y => y.get i).foldl f (x.get i) := by
  rw [Interpreter.naryFold]
  induction xs generalizing x with
  | nil => exact ⟨x, rfl, rfl, fun _ _ => rfl⟩
  | cons y xs ih =>
    obtain ⟨hy, hxs⟩ := forall_mem_cons.1 h
    obtain ⟨r, hr, hrwidth, hrget⟩ := ih (x := F x y) fun z hz => by
      rw [hwidth]
      exact hxs z hz
    refine ⟨r, ?_, hrwidth.trans (hwidth x y), fun i hi => ?_⟩
    · rw [foldlM_cons, beq_iff_eq.2 hy.symm]
      exact hr
    · rw [hrget i (by rwa [hwidth]), hget hi]
      rfl

variable {w : Nat} {xs : List Bits}

/-- A bitwise operation acts on every position as it does on truth values. -/
theorem naryOp_get (op : NaryOp) (hne : xs ≠ []) (h : ∀ x ∈ xs, x.width = w) :
    ∃ r, Interpreter.naryOp op xs = .ok r ∧ r.width = w ∧
      ∀ i < w, r.get i = truth op (xs.map fun x => x.get i) := by
  obtain ⟨x, xs, rfl⟩ := exists_cons_of_ne_nil hne
  obtain ⟨rfl, hxs⟩ := forall_mem_cons.1 h
  obtain ⟨a, ha, hawidth, haget⟩ :=
    @naryFold_get Bits.and and (fun _ _ => rfl) (fun hi => get_and hi) _ _ hxs
  obtain ⟨o, ho, howidth, hoget⟩ :=
    @naryFold_get Bits.or or (fun _ _ => rfl) (fun hi => get_or hi) _ _ hxs
  obtain ⟨e, he, hewidth, heget⟩ :=
    @naryFold_get Bits.xor xor (fun _ _ => rfl) (fun hi => get_xor hi) _ _ hxs
  cases op with
  | and =>
    refine ⟨a, ha, hawidth, fun i hi => ?_⟩
    rw [haget i hi, truth, map_cons, foldl_cons, Bool.true_and]
  | or =>
    refine ⟨o, ho, howidth, fun i hi => ?_⟩
    rw [hoget i hi, truth, map_cons, foldl_cons, Bool.false_or]
  | xor =>
    refine ⟨e, he, hewidth, fun i hi => ?_⟩
    rw [heget i hi, truth, map_cons, foldl_cons, false_xor]
  | nand =>
    refine ⟨a.not, ?_, hawidth, fun i hi => ?_⟩
    · rw [Interpreter.naryOp, ha]
      rfl
    · rw [get_not (by rwa [hawidth]), haget i hi, truth, map_cons, foldl_cons, Bool.true_and]
  | nor =>
    refine ⟨o.not, ?_, howidth, fun i hi => ?_⟩
    · rw [Interpreter.naryOp, ho]
      rfl
    · rw [get_not (by rwa [howidth]), hoget i hi, truth, map_cons, foldl_cons, Bool.false_or]

/-! ### Rows and positions -/

/-- The row of the table for the bits that some words have at a position. -/
def RowAt (xs : List Bits) (j k : Nat) : Prop :=
  ∀ (i : Fin 3) (x : Bits), xs[i.val]? = some x →
    (TruthTable.getInitialVector i).get k = x.get j

theorem exists_row (a b c : Bool) : ∃ k < 8, (TruthTable.getInitialVector 0).get k = a ∧
    (TruthTable.getInitialVector 1).get k = b ∧ (TruthTable.getInitialVector 2).get k = c := by
  revert a b c
  decide

/-- Some row stands for each position. -/
theorem exists_rowAt (xs : List Bits) (j : Nat) : ∃ k < 8, RowAt xs j k := by
  obtain ⟨k, hk, h₀, h₁, h₂⟩ := exists_row ((xs[0]?.map fun x => x.get j).getD false)
    ((xs[1]?.map fun x => x.get j).getD false) ((xs[2]?.map fun x => x.get j).getD false)
  refine ⟨k, hk, fun i x hx => ?_⟩
  obtain rfl | rfl | rfl : i = 0 ∨ i = 1 ∨ i = 2 := by omega
  · rw [h₀, show xs[0]? = some x from hx]
    rfl
  · rw [h₁, show xs[1]? = some x from hx]
    rfl
  · rw [h₂, show xs[2]? = some x from hx]
    rfl

/-- A word has at every position the bit that the table has at the row of the position. -/
structure Lifts (xs : List Bits) (w : Nat) (v y : Bits) : Prop where
  rows : v.width = 8
  width : y.width = w
  get : ∀ j < w, ∀ k < 8, RowAt xs j k → y.get j = v.get k

/-- A table determines the word. -/
theorem Lifts.unique {v y y' : Bits} (h : Lifts xs w v y) (h' : Lifts xs w v y') : y = y' := by
  refine eq_of_get (h.width.trans h'.width.symm) fun j hj => ?_
  rw [h.width] at hj
  obtain ⟨k, hk, hrow⟩ := exists_rowAt xs j
  rw [h.get j hj k hk hrow, h'.get j hj k hk hrow]

theorem getInitialVector_width : ∀ i, (TruthTable.getInitialVector i).width = 8 := by decide

theorem lifts_initial {i : Fin 3} {x : Bits} (hx : xs[i.val]? = some x) (hwidth : x.width = w) :
    Lifts xs w (TruthTable.getInitialVector i) x where
  rows := getInitialVector_width i
  width := hwidth
  get := fun _ _ _ _ hrow => (hrow i x hx).symm

theorem Lifts.not {v y : Bits} (h : Lifts xs w v y) : Lifts xs w v.not y.not where
  rows := h.rows
  width := h.width
  get := by
    intro j hj k hk hrow
    rw [get_not (by rwa [h.width]), get_not (by rwa [h.rows]), h.get j hj k hk hrow]

/-- The operation on words is lifted from that on tables. -/
theorem Lifts.nary (op : NaryOp) {vs ys : List Bits} (h : Forall₂ (Lifts xs w) vs ys)
    (hne : vs ≠ []) :
    ∃ v y, Interpreter.naryOp op vs = .ok v ∧ Interpreter.naryOp op ys = .ok y ∧
      Lifts xs w v y := by
  have hmem : ∀ y ∈ ys, ∃ v ∈ vs, Lifts xs w v y := by
    intro y hy
    obtain ⟨i, hi, rfl⟩ := getElem_of_mem hy
    have hi' : i < vs.length := by rwa [h.length_eq]
    exact ⟨vs[i], getElem_mem hi', h.get hi' hi⟩
  have hrows : ∀ v ∈ vs, v.width = 8 := by
    intro v hv
    obtain ⟨i, hi, rfl⟩ := getElem_of_mem hv
    exact (h.get hi (by rwa [← h.length_eq])).rows
  have hwidths : ∀ y ∈ ys, y.width = w := by
    intro y hy
    obtain ⟨v, -, hv⟩ := hmem y hy
    exact hv.width
  have hne' : ys ≠ [] := by
    intro hnil
    rw [hnil] at h
    exact hne (forall₂_nil_right_iff.1 h)
  obtain ⟨v, hv, hvwidth, hvget⟩ := naryOp_get op hne hrows
  obtain ⟨y, hy, hywidth, hyget⟩ := naryOp_get op hne' hwidths
  refine ⟨v, y, hv, hy, hvwidth, hywidth, fun j hj k hk hrow => ?_⟩
  rw [hvget k hk, hyget j hj]
  congr 1
  refine ext_getElem (by simp [h.length_eq]) fun i hi hi' => ?_
  rw [getElem_map, getElem_map]
  rw [length_map] at hi hi'
  exact (h.get hi' hi).get j hj k hk hrow

/-! ### The tables that are looked up -/

/-- The table tells rows apart that differ in the third node. -/
def tellsThird (v : Bits) : Bool :=
  (List.range 4).any fun k => v.get (2 * k) != v.get (2 * k + 1)

/-- An entry: the table of its operation, which does not need a node that it does not name. -/
structure Entry (key : Nat) (t : TruthTable) (v : Bits) : Prop where
  compute : t.computeTruthTable = .ok v
  key : v.val = key
  width : v.width = 8
  third : t.present 2 = true → tellsThird v = true

section

local instance neZeroThree : NeZero 3 := ⟨by decide⟩

/-- A candidate passes the checks and is the table of its operation. -/
def candidateChecks (candidate : Nat × Nat × Option NaryOp) : Bool :=
  match TruthTable.make (Bits.ofNat 3 candidate.1) (Bits.ofNat 3 candidate.2.1) candidate.2.2 with
  | .error _ => false
  | .ok t =>
    match t.computeTruthTable with
    | .error _ => false
    | .ok v => v.width == 8 && (!t.present 2 || tellsThird v)

end

theorem candidates_check : candidates.all candidateChecks = true := by decide +kernel

variable {candidate : Nat × Nat × Option NaryOp}

/-- Each candidate that passes the checks is an entry of the table. -/
theorem exists_entry (h : candidateChecks candidate = true) :
    ∃ t v, TruthTable.make (Bits.ofNat 3 candidate.1) (Bits.ofNat 3 candidate.2.1) candidate.2.2 =
      .ok t ∧ Entry v.val t v := by
  unfold candidateChecks at h
  split at h
  · cases h
  · rename_i t ht
    split at h
    · cases h
    · rename_i v hv
      rw [and_eq_true, beq_iff_eq, or_eq_true, not_eq_true'] at h
      refine ⟨t, v, ht, hv, rfl, h.1, fun hpresent => ?_⟩
      rcases h.2 with habsent | htells
      · rw [hpresent] at habsent
        cases habsent
      · exact htells

/-- Every candidate is added, or there is an entry with its table. -/
theorem addTable_ok {results : List (Nat × TruthTable)} (hcheck : candidateChecks candidate = true)
    (h : ∀ key t, results.lookup key = some t → ∃ v, Entry key t v) :
    ∃ out, addTable results candidate = .ok out ∧
      ∀ key t, out.lookup key = some t → ∃ v, Entry key t v := by
  obtain ⟨t, v, ht, hentry⟩ := exists_entry hcheck
  have hbits : BitsOps.toUint64 v = .ok v.val := by
    refine BitsOps.toUint64_eq ?_
    rw [hentry.width]
    decide
  refine ⟨if (results.lookup v.val).isSome then results else results ++ [(v.val, t)], ?_, ?_⟩
  · obtain ⟨presence, negation, op⟩ := candidate
    unfold addTable
    dsimp only at ht ⊢
    rw [ht, Result.ok_bind, hentry.compute, Result.ok_bind, hbits]
    rfl
  · intro key t' hlookup
    split at hlookup
    · exact h key t' hlookup
    · rw [lookup_append] at hlookup
      cases hold : results.lookup key with
      | some earlier =>
        rw [hold] at hlookup
        cases hlookup
        exact h key _ hold
      | none =>
        rw [hold, Option.none_or, lookup_cons] at hlookup
        by_cases hkey : key = v.val
        · rw [beq_iff_eq.2 hkey] at hlookup
          cases hlookup
          rw [hkey]
          exact ⟨v, hentry⟩
        · rw [beq_eq_false_iff_ne.2 hkey] at hlookup
          cases hlookup

/-- Building the tables succeeds, and they hold only such entries. -/
theorem createTruthTables_ok : ∃ tables, createTruthTables = .ok tables ∧
    ∀ key t, tables.lookup key = some t → ∃ v, Entry key t v := by
  have hfold : ∀ (cs : List (Nat × Nat × Option NaryOp)) (results : List (Nat × TruthTable)),
      cs.all candidateChecks = true →
      (∀ key t, results.lookup key = some t → ∃ v, Entry key t v) →
      ∃ tables, cs.foldlM addTable results = .ok tables ∧
        ∀ key t, tables.lookup key = some t → ∃ v, Entry key t v := by
    intro cs
    induction cs with
    | nil => exact fun results _ h => ⟨results, rfl, h⟩
    | cons c cs ih =>
      intro results hcs h
      rw [all_cons, and_eq_true] at hcs
      obtain ⟨out, hout, hentries⟩ := addTable_ok hcs.1 h
      rw [foldlM_cons, hout]
      exact ih out hcs.2 hentries
  exact hfold candidates [] candidates_check fun _ _ h => nomatch h

/-! ### Replacements -/

section Replacements

variable {env : Env} {args : List Value} {w : World env args} {b : ℚ} {frontier : List Nat}
  {xs : List Bits} {width : Nat}

/-- A node on several operands holds the bitwise operation of them. -/
theorem ensures_makeNary {op : NaryOp} {ids : List Nat} {ys : List Bits} {y : Bits}
    (h : HoldsAll w b ids ys) (hne : ys ≠ []) (hwidths : ∀ y ∈ ys, y.width = width)
    (hywidth : y.width = width) (heval : Interpreter.naryOp op ys = .ok y) :
    w.Ensures (TruthTable.makeNary op ids) fun w' r => w'.Holds b r y := by
  cases h with
  | nil => exact absurd rfl hne
  | @cons i x ids xs hx hrest =>
    have hfirst : derefOption (i :: ids).head? = .ok i := rfl
    refine ensures_lift hfirst (ensures_bind (ensures_getNode hx) fun w' m hle hm => ?_)
    rw [hm.2]
    have hoperands := (HoldsAll.mono (.cons hx hrest) hle).operands
    have hxwidth := (forall_mem_cons.1 hwidths).1
    refine ensures_makeBits hoperands.types ?_ ?_ hoperands.values ?_ hoperands.rank
    · have hall : ∀ t ∈ (x :: xs).map fun x => IrType.bits x.width,
          (t == .bits x.width) = true := by
        intro t ht
        obtain ⟨y, hy, rfl⟩ := mem_map.1 ht
        rw [hwidths y hy, hxwidth, beq_self_eq_true]
      simpa [verifyNode, IrType.isBits] using hall
    · rw [hywidth, hxwidth]
    · show (Interpreter.bitsVector _ >>= fun xs => Interpreter.naryOp op xs >>= fun r => _) = _
      rw [Interpreter.bitsVector_leaves, Result.ok_bind, heval]
      rfl

/-- The operands of the replacement are worth their vectors. -/
theorem ensures_createOperands {t : TruthTable} (h : HoldsAll w b frontier xs)
    (hwidths : ∀ x ∈ xs, x.width = width) {is : List (Fin 3)}
    (hpresent : ∀ i ∈ is, t.present i = true → i.val < frontier.length) :
    w.Ensures (t.createOperands frontier is) fun w' ids => ∃ ys, HoldsAll w' b ids ys ∧
      Forall₂ (Lifts xs width) (is.filterMap t.operandVector) ys := by
  induction is generalizing w with
  | nil => exact ensures_pure fun _ _ => ⟨[], .nil, .nil⟩
  | cons i is ih =>
    obtain ⟨hi, his⟩ := forall_mem_cons.1 hpresent
    rw [TruthTable.createOperands]
    split
    · rename_i hp
      have hlt := hi hp
      have hlt' : i.val < xs.length := by rwa [← h.length_eq]
      have hx := h.get hlt hlt'
      rw [get_eq_getElem, get_eq_getElem] at hx
      have hlifts : Lifts xs width (TruthTable.getInitialVector i) xs[i.val] :=
        lifts_initial (getElem?_eq_getElem hlt') (hwidths _ (getElem_mem hlt'))
      have hderef : derefOption frontier[i.val]? = .ok frontier[i.val] := by
        rw [getElem?_eq_getElem hlt]
        rfl
      refine ensures_lift hderef ?_
      have hoperand : w.Ensures (t.createOperand i frontier[i.val]) fun w' o =>
          ∃ y, w'.Holds b o y ∧ Lifts xs width (if t.negated i then
            (TruthTable.getInitialVector i).not else TruthTable.getInitialVector i) y := by
        unfold TruthTable.createOperand
        split
        · exact (OneBitMux.ensures_makeNot hx).imp fun w' o _ ho => ⟨_, ho, hlifts.not⟩
        · exact ensures_pure fun w' hle => ⟨_, hx.mono hle, hlifts⟩
      refine ensures_bind hoperand fun w₁ o h₁ ho => ?_
      obtain ⟨y, hy, hvector⟩ := ho
      refine ensures_bind (ih (h.mono h₁) his) fun w₂ ids h₂ hids => ensures_pure fun w₃ h₃ => ?_
      obtain ⟨ys, hys, hvectors⟩ := hids
      refine ⟨y :: ys, .cons (hy.mono (h₂.trans h₃)) (hys.mono h₃), ?_⟩
      rw [filterMap_cons, TruthTable.operandVector, if_pos hp]
      exact .cons hvector hvectors
    · rename_i hp
      rw [filterMap_cons, TruthTable.operandVector, if_neg hp]
      exact ih h his

/-- A replacement is worth what its table says. -/
theorem ensures_createReplacement {t : TruthTable} {v : Bits} (h : HoldsAll w b frontier xs)
    (hlength : frontier.length ≤ 3) (hwidths : ∀ x ∈ xs, x.width = width)
    (hpresent : ∀ i, t.present i = true → i.val < frontier.length)
    (hcompute : t.computeTruthTable = .ok v) :
    w.Ensures (t.createReplacement frontier) fun w' r =>
      ∃ y, w'.Holds b r y ∧ Lifts xs width v y := by
  unfold TruthTable.createReplacement
  rw [maxFrontierNodes, if_neg (Nat.not_lt.2 hlength)]
  refine ensures_bind (ensures_createOperands h hwidths fun i _ => hpresent i)
    fun w' ids _ hids => ?_
  obtain ⟨ys, hys, hlifts⟩ := hids
  change Forall₂ (Lifts xs width) t.operandVectors ys at hlifts
  unfold TruthTable.computeTruthTable at hcompute
  cases hop : t.logicalOp with
  | none =>
    rw [hop] at hcompute
    dsimp only at hcompute
    split at hcompute
    · rename_i v' hvectors
      cases hcompute
      rw [hvectors] at hlifts
      -- one operand: the replacement is the operand or its inverse
      cases hlifts with
      | cons hy hnil =>
        cases hnil
        cases hys with
        | cons ho hnil =>
          cases hnil
          exact ensures_pure fun w'' hle => ⟨_, ho.mono hle, hy⟩
    · cases hcompute
  | some op =>
    rw [hop] at hcompute
    have hne : t.operandVectors ≠ [] := by
      intro hnil
      dsimp only at hcompute
      rw [hnil] at hcompute
      cases op <;> cases hcompute
    obtain ⟨v', y, hv', hy, hlift⟩ := Lifts.nary op hlifts hne
    have hsame : v' = v := Except.ok.inj (hv'.symm.trans hcompute)
    have hne' : ys ≠ [] := by
      intro hnil
      rw [hnil] at hlifts
      exact hne (forall₂_nil_right_iff.1 hlifts)
    have hyswidths : ∀ y ∈ ys, y.width = width := by
      intro y hy
      obtain ⟨i, hi, rfl⟩ := getElem_of_mem hy
      exact (hlifts.get (by rwa [hlifts.length_eq]) hi).width
    refine (ensures_makeNary hys hne' hyswidths hlift.width hy).imp fun w'' r _ hr => ?_
    rw [← hsame]
    exact ⟨y, hr, hlift⟩

end Replacements

end BooleanSimplification

end Xls

import Xls.SelectSimplification

/-!
# Xls.SelectSimplification.Terminates

The worklist loop ends for every graph and every query engine (`splitLoop_ends`). A one-hot
select that is split leaves at least two narrower ones, whose widths add up to its own, so a
weight of twice the width less one falls in every iteration.
-/

namespace Xls.SelectSimplification

open Result List
open Graph (Build)

variable {e : QueryEngine} {g g' : Graph}

/-! ### Graphs that grow -/

/-- The kind and the type of a node. -/
def shapeOf (g : Graph) (id : Nat) : Option (NodeKind × IrType) :=
  g.nodes[id]?.map fun n => (n.kind, n.type)

/-- Nodes are only added; the others keep their kinds and types. -/
def Grows (g g' : Graph) : Prop :=
  g.nodes.map (fun n => (n.kind, n.type)) <+: g'.nodes.map fun n => (n.kind, n.type)

theorem Grows.refl (g : Graph) : Grows g g := prefix_refl _

theorem Grows.trans {g'' : Graph} (h : Grows g g') (h' : Grows g' g'') : Grows g g'' :=
  List.IsPrefix.trans h h'

variable {id width start selector : Nat} {cases : List Nat}

theorem Grows.shapeOf {s : NodeKind × IrType} (h : Grows g g') (hs : shapeOf g id = some s) :
    shapeOf g' id = some s := by
  unfold SelectSimplification.shapeOf at hs ⊢
  rw [← getElem?_map] at hs ⊢
  obtain ⟨rest, hrest⟩ := h
  rw [← hrest, getElem?_append_left (List.getElem?_eq_some_iff.1 hs).1]
  exact hs

variable {n : Node} {run : Nat}

theorem makeNode_grows (h : Graph.makeNode n g = .ok (id, g')) :
    Grows g g' ∧ shapeOf g' id = some (n.kind, n.type) := by
  cases h
  refine ⟨?_, ?_⟩
  · rw [Grows, map_append]
    exact prefix_append _ _
  · rw [shapeOf, getElem?_concat_length]
    rfl

theorem replaceUsesWith_grows {old new : Nat} {u : Unit}
    (h : Graph.replaceUsesWith old new g = .ok (u, g')) : Grows g g' := by
  unfold Graph.replaceUsesWith at h
  split at h
  · cases h
    rw [Grows, map_map]
    exact prefix_refl _
  · cases h

theorem getNode_eq (h : Graph.getNode id g = .ok (n, g')) : g.nodes[id]? = some n ∧ g' = g := by
  obtain ⟨n', hn, h⟩ := bind_eq_ok.1 h
  cases h
  exact ⟨derefOption_eq_ok.1 hn, rfl⟩

theorem lift_eq {α : Type} {c : Result α} {a : α}
    (h : (liftM c : Build α) g = .ok (a, g')) : c = .ok a ∧ g' = g := by
  obtain ⟨a', hc, h⟩ := bind_eq_ok.1 h
  cases h
  exact ⟨hc, rfl⟩

/-- The parts of a run of a build. -/
theorem build_bind {α β : Type} {c : Build α} {f : α → Build β} {b : β}
    (h : (c >>= f) g = .ok (b, g')) : ∃ a g₁, c g = .ok (a, g₁) ∧ f a g₁ = .ok (b, g') := by
  obtain ⟨⟨a, g₁⟩, hc, hf⟩ := bind_eq_ok.1
    (show (c g >>= fun p => f p.1 p.2) = .ok (b, g') from h)
  exact ⟨a, g₁, hc, hf⟩

/-! ### Runs -/

/-- A run of equal pairs is no longer than what is left. -/
theorem nonDistinctFrom_le {left i : Nat} {matched : Option (List (Nat × Nat))}
    (h : nonDistinctFrom e g cases left i matched = .ok run) : run ≤ left := by
  induction left generalizing i matched run with
  | zero =>
    cases h
    exact le_rfl
  | succ left ih =>
    obtain ⟨pairs, -, h⟩ := bind_eq_ok.1 h
    split at h
    · cases h
      exact Nat.zero_le _
    · obtain ⟨run', hrun, h⟩ := bind_eq_ok.1 h
      cases h
      exact Nat.succ_le_succ (ih hrun)

/-- A run of distinct pairs is no longer than what is left. -/
theorem distinctFrom_le {left i : Nat} (h : distinctFrom e g cases left i = .ok run) :
    run ≤ left := by
  induction left generalizing i run with
  | zero =>
    cases h
    exact le_rfl
  | succ left ih =>
    obtain ⟨pairs, -, h⟩ := bind_eq_ok.1 h
    split at h
    · obtain ⟨run', hrun, h⟩ := bind_eq_ok.1 h
      cases h
      exact Nat.succ_le_succ (ih hrun)
    · cases h
      exact Nat.zero_le _

/-- The next run is not empty and does not leave the select. -/
theorem nextRun_spec (h : nextRun e g cases width start = .ok run) :
    0 < run ∧ run ≤ width - start := by
  obtain ⟨distinct, hdistinct, h⟩ := bind_eq_ok.1 h
  obtain ⟨run', hrun, h⟩ := bind_eq_ok.1 h
  split at h
  · rename_i hpos
    cases h
    refine ⟨hpos, ?_⟩
    split at hrun
    · exact nonDistinctFrom_le hrun
    · cases hrun
      exact distinctFrom_le hdistinct
  · cases h

/-! ### Slices -/

/-- Slicing the cases only appends nodes. -/
theorem sliceCases_grows {slices : List Nat}
    (h : sliceCases start width cases g = .ok (slices, g')) : Grows g g' := by
  induction cases generalizing g slices with
  | nil =>
    cases h
    exact .refl _
  | cons c cs ih =>
    obtain ⟨slice, g₁, hslice, h⟩ := build_bind h
    obtain ⟨rest, g₂, hrest, h⟩ := build_bind h
    cases h
    exact (makeNode_grows hslice).1.trans (ih hrest)

theorem sliceOneHotSelect_grows {slice : Nat}
    (h : sliceOneHotSelect selector cases start width g = .ok (slice, g')) :
    Grows g g' ∧ shapeOf g' slice = some (.oneHotSel, .bits width) := by
  obtain ⟨slices, g₁, hslices, h⟩ := build_bind h
  obtain ⟨hgrows, hshape⟩ := makeNode_grows h
  exact ⟨(sliceCases_grows hslices).trans hgrows, hshape⟩

/-- The slices are one-hot selects whose widths add up. -/
theorem sliceRuns_spec {fuel : Nat} {r : Option (List (Nat × Nat))} (hstart : start ≤ width)
    (h : sliceRuns e selector cases width fuel start g = .ok (r, g')) :
    Grows g g' ∧ ∀ slices, r = some slices → (slices.map Prod.snd).sum = width - start ∧
      ∀ p ∈ slices, 0 < p.2 ∧ p.2 ≠ width ∧ shapeOf g' p.1 = some (.oneHotSel, .bits p.2) := by
  induction fuel generalizing start r g with
  | zero => cases h
  | succ fuel ih =>
    rw [sliceRuns] at h
    split at h
    · obtain ⟨g₁, g₂, hget, hrest⟩ := build_bind h
      cases hget
      obtain ⟨run, g₂, hlift, hslice⟩ := build_bind hrest
      obtain ⟨hrun, rfl⟩ := lift_eq hlift
      obtain ⟨hpos, hle⟩ := nextRun_spec hrun
      split at hslice
      · cases hslice
        exact ⟨.refl _, nofun⟩
      · rename_i hne
        obtain ⟨slice, g₃, hmake, hmore⟩ := build_bind hslice
        obtain ⟨rest, g₄, hrest, hmore⟩ := build_bind hmore
        cases hmore
        obtain ⟨hgrows, hshape⟩ := sliceOneHotSelect_grows hmake
        obtain ⟨hgrows', hall⟩ := ih (by omega) hrest
        refine ⟨hgrows.trans hgrows', fun slices hslices => ?_⟩
        obtain ⟨rest, rfl, rfl⟩ := Option.map_eq_some_iff.mp hslices
        obtain ⟨hsum, hall⟩ := hall rest rfl
        refine ⟨?_, forall_mem_cons.mpr ⟨⟨hpos, hne, hgrows'.shapeOf hshape⟩, hall⟩⟩
        rw [map_cons, sum_cons, hsum]
        omega
    · cases h
      refine ⟨.refl _, fun slices hslices => ?_⟩
      cases hslices
      refine ⟨?_, by simp⟩
      rw [map_nil, sum_nil]
      omega

/-! ### The measure -/

/-- Twice the width less one, but at least one. -/
def weight (g : Graph) (id : Nat) : Nat :=
  match shapeOf g id with
  | some (_, .bits width) => max 1 (2 * width - 1)
  | _ => 1

theorem weight_pos (g : Graph) (id : Nat) : 0 < weight g id := by
  unfold weight
  split <;> omega

theorem weight_eq {kind : NodeKind} (h : shapeOf g id = some (kind, .bits width)) :
    weight g id = max 1 (2 * width - 1) := by
  rw [weight, h]

/-- The one-hot selects that the loop may look at. -/
def IsOneHotSelect (g : Graph) (id : Nat) : Prop := ∃ type, shapeOf g id = some (.oneHotSel, type)

theorem IsOneHotSelect.mono (h : IsOneHotSelect g id) (hgrows : Grows g g') :
    IsOneHotSelect g' id ∧ weight g' id = weight g id := by
  obtain ⟨type, htype⟩ := h
  refine ⟨⟨type, hgrows.shapeOf htype⟩, ?_⟩
  rw [weight, weight, htype, hgrows.shapeOf htype]

/-- Widths that add up weigh less together than alone. -/
theorem weights_lt {slices : List (Nat × Nat)} (hne : slices ≠ [])
    (hsum : (slices.map Prod.snd).sum = width) (hall : ∀ p ∈ slices, 0 < p.2 ∧ p.2 ≠ width)
    (hshape : ∀ p ∈ slices, shapeOf g p.1 = some (.oneHotSel, .bits p.2)) :
    ((slices.map Prod.fst).map (weight g)).sum < 2 * width - 1 := by
  have hweights : ∀ l : List (Nat × Nat), (∀ p ∈ l, p ∈ slices) →
      ((l.map Prod.fst).map (weight g)).sum + l.length = 2 * (l.map Prod.snd).sum := by
    intro l hl
    induction l with
    | nil => rfl
    | cons p l ih =>
      obtain ⟨hp, hl⟩ := forall_mem_cons.mp hl
      have hpos := (hall p hp).1
      have hweight := weight_eq (hshape p hp)
      have hih := ih hl
      simp only [map_cons, sum_cons, length_cons, hweight]
      omega
  have htotal := hweights slices fun _ hp => hp
  match slices, hne, hsum, hall, htotal with
  | [p], _, hsum, hall, _ =>
    have hp := (hall p mem_cons_self).2
    simp only [map_cons, map_nil, sum_cons, sum_nil, add_zero] at hsum
    exact absurd hsum hp
  | p :: q :: rest, _, hsum, hall, htotal =>
    have hp := (hall p mem_cons_self).1
    simp only [map_cons, sum_cons, length_cons] at hsum htotal ⊢
    omega

/-- Only one-hot selects are split. -/
theorem splitOperands_some (h : splitOperands n = .ok (some (selector, cases, width))) :
    n.kind = .oneHotSel ∧ n.operands = selector :: cases ∧ n.type = .bits width := by
  unfold splitOperands at h
  split at h
  · rename_i hkind hoperands htype
    split at h
    · cases h
    · cases h
      exact ⟨hkind, hoperands, htype⟩
  · cases h
  · cases h

/-- A split grows the graph and leaves one-hot selects that weigh less than the one that was
split. -/
theorem maybeSplitOneHotSelect_spec {new : List Nat}
    (h : maybeSplitOneHotSelect e id g = .ok (new, g')) :
    Grows g g' ∧ (∀ i ∈ new, IsOneHotSelect g' i) ∧ (new.map (weight g')).sum < weight g id := by
  obtain ⟨n, g₁, hget, hrest⟩ := build_bind h
  obtain ⟨hn, rfl⟩ := getNode_eq hget
  obtain ⟨parts, g₂, hlift, hsplit⟩ := build_bind hrest
  obtain ⟨hparts, rfl⟩ := lift_eq hlift
  match parts, hparts, hsplit with
  | none, _, hsplit =>
    cases hsplit
    exact ⟨.refl _, by simp, weight_pos _ id⟩
  | some (selector, cases, width), hparts, hsplit =>
    obtain ⟨hkind, -, htype⟩ := splitOperands_some hparts
    obtain ⟨slices, g₃, hslices, hreplace⟩ := build_bind hsplit
    obtain ⟨hgrows, hall⟩ := sliceRuns_spec (Nat.zero_le _) hslices
    cases slices with
    | none =>
      cases hreplace
      exact ⟨hgrows, by simp, weight_pos _ id⟩
    | some slices =>
      obtain ⟨concat, g₄, hconcat, hmore⟩ := build_bind hreplace
      obtain ⟨_, g₅, hreplace, hmore⟩ := build_bind hmore
      cases hmore
      obtain ⟨hsum, hall⟩ := hall slices rfl
      have hgrows' := (makeNode_grows hconcat).1.trans (replaceUsesWith_grows hreplace)
      have hshapes : ∀ p ∈ slices, shapeOf g' p.1 = some (.oneHotSel, .bits p.2) :=
        fun p hp => hgrows'.shapeOf (hall p hp).2.2
      refine ⟨hgrows.trans hgrows', ?_, ?_⟩
      · intro i hi
        obtain ⟨p, hp, rfl⟩ := mem_map.1 hi
        exact ⟨_, hshapes p hp⟩
      · rw [weight_eq (show shapeOf _ id = some (n.kind, .bits width) by
          rw [shapeOf, hn, ← htype]; rfl)]
        cases slices with
        | nil => exact lt_of_lt_of_le Nat.one_pos (le_max_left _ _)
        | cons p rest =>
          exact lt_of_lt_of_le (weights_lt (by simp) (by rw [hsum, Nat.sub_zero])
            (fun p hp => ⟨(hall p hp).1, (hall p hp).2.1⟩) hshapes) (le_max_right _ _)

/-! ### The loop -/

/-- The loop ends: more fuel than the weight of the worklist is enough. -/
theorem splitLoop_ends (e : QueryEngine) {fuel : Nat} {worklist : List Nat} (changed : Bool)
    {g : Graph} (hall : ∀ id ∈ worklist, IsOneHotSelect g id)
    (hfuel : (worklist.map (weight g)).sum < fuel) :
    ∃ r, splitLoop e fuel worklist changed g = some r := by
  induction fuel generalizing worklist changed g with
  | zero => exact absurd hfuel (Nat.not_lt_zero _)
  | succ fuel ih =>
    cases worklist with
    | nil => exact ⟨_, rfl⟩
    | cons id worklist =>
      cases hsplit : maybeSplitOneHotSelect e id g with
      | error failure =>
        refine ⟨.error failure, ?_⟩
        simp only [splitLoop, hsplit]
      | ok r =>
        obtain ⟨new, g'⟩ := r
        obtain ⟨hgrows, hnew, hweight⟩ := maybeSplitOneHotSelect_spec hsplit
        obtain ⟨-, hworklist⟩ := forall_mem_cons.mp hall
        have hsame : worklist.map (weight g') = worklist.map (weight g) :=
          map_congr_left fun i hi => ((hworklist i hi).mono hgrows).2
        simp only [splitLoop, hsplit]
        refine ih _ (fun i hi => ?_) ?_
        · rcases mem_append.1 hi with hi | hi
          · exact ((hworklist i hi).mono hgrows).1
          · exact hnew i hi
        · rw [map_append, sum_append, hsame]
          rw [map_cons, sum_cons] at hfuel
          omega

theorem isOneHotSelect_of_mem (h : id ∈ oneHotSelects g) : IsOneHotSelect g id := by
  obtain ⟨-, hkind⟩ := mem_filter.1 h
  rw [beq_iff_eq, Option.map_eq_some_iff] at hkind
  obtain ⟨n, hn, hkind⟩ := hkind
  exact ⟨n.type, by rw [shapeOf, hn, ← hkind]; rfl⟩

end Xls.SelectSimplification

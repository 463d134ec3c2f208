import Xls.Canonicalization.Rules

/-!
# Xls.Canonicalization.Selects

The rules for selects, and the soundness of `CanonicalizeNode` (`sound_canonicalizeNode`).
-/

namespace Xls

open Interpreter List Bits Nat
open Xls.Graph (World)

namespace Canonicalization

variable {env : Env} {args : List Value} {w : World env args} {id : Nat} {n : Node}

/-! ### Two-way selects -/

/-- A two-way select without a default has a selector of one bit. -/
theorem width_of_verifySelector {width : Nat} (h : verifySelector width 2 false = true) :
    width = 1 := by
  have hmin : minBitCountUnsigned 1 = 1 := by decide
  have hpow : isPowerOfTwo 2 = true := by decide
  simp [verifySelector, hmin, hpow] at h
  omega

/-- A two-way select on one bit has no default. -/
theorem not_verifySelector_one : verifySelector 1 2 true = false := by decide

variable {s y z x : Bits} {m o a : Nat} {bound' : ℚ}

/-- A select of two cases by one bit. -/
theorem sel_two (h : s.width = 1) (u u' : Value) :
    sel s [u, u'] none = .ok (if s.val = 0 then u else u') := by
  have hlt := s.isLt
  rw [h] at hlt
  have hcheck : decide (0 < [u, u'].length ∧ [u, u'].length - 1 < 2 ^ s.width) = true := by
    rw [h]
    rfl
  rw [sel, hcheck, checkThat_true, Result.ok_bind, if_neg (by simp; omega)]
  by_cases hs : s.val = 0
  · rw [hs]
    rfl
  · rw [if_neg hs, show s.val = 1 by omega]
    rfl

/-- A select with its selector and cases. -/
theorem exists_sel {hasDefault : Bool} {selector : Nat} {cases : List Nat}
    (hn : w.graph.nodes[id]? = some n) (hkind : n.kind = .sel hasDefault)
    (hoperands : n.operands = selector :: cases) :
    ∃ k ts s us v, At w id n (.bits k :: ts) (.leaf s :: us) v ∧ s.width = k ∧
      w.Has (w.rank id) selector (.bits k) (.leaf s) ∧ Operands w (w.rank id) cases ts us ∧
      (∀ t ∈ ts, t = n.type) ∧
      verifySelector k (if hasDefault then ts.length - 1 else ts.length) hasDefault = true := by
  obtain ⟨types, ops, v, h⟩ := exists_at hn
  have hops := h.operands
  have hverify := h.verified
  rw [hoperands] at hops
  rw [hkind] at hverify
  cases hops with
  | @cons _ t u _ ts us hs hcases =>
    cases t with
    | bits k =>
      obtain ⟨s, rfl, hs'⟩ := has_bits hs
      simp only [verifyNode, Bool.and_eq_true, all_eq_true, beq_iff_eq] at hverify
      exact ⟨k, ts, s, us, v, h, hs', hs, hcases, hverify.2, hverify.1.2⟩
    | _ => simp [verifyNode] at hverify

theorem evalNode_sel_two {type : IrType} (h : s.width = 1) (u u' : Value) :
    evalNode env args (.sel false) type [.leaf s, u, u'] = .ok (if s.val = 0 then u else u') :=
  sel_two h u u'

theorem verifyNode_sel_two (params : List IrType) (t : IrType) :
    verifyNode params (.sel false) [.bits 1, t, t] t = true := by
  have hselector : verifySelector 1 2 false = true := by decide
  simp [verifyNode, hselector]

theorem not_val (y : Bits) : y.not.val = 2 ^ y.width - 1 - y.val := by
  have hlt := y.isLt
  exact mod_eq_of_lt (by omega)

variable {bound : ℚ} {k : Nat} {cmp : CompareOp} {clamp : Clamp} {g : Graph}

/-- The operand of an inverted selector. -/
theorem exists_not {selector p : Nat} {type : IrType}
    (hn : w.graph.nodes[selector]? = some ⟨.un .not, [p], type⟩)
    (hs : w.Has bound selector (.bits 1) (.leaf s)) :
    ∃ y : Bits, w.Has (w.rank selector) p (.bits 1) (.leaf y) ∧ y.width = 1 ∧ s = y.not := by
  obtain ⟨t, u, v, h, hp⟩ := exists_unary hn rfl
  have htype : type = .bits 1 := by
    have ht := hs.type
    rw [hn] at ht
    exact Option.some.inj ht
  have hverify := h.verified
  simp only [verifyNode, Bool.and_eq_true, beq_iff_eq] at hverify
  obtain rfl : t = .bits 1 := hverify.1.trans htype
  obtain ⟨y, rfl, hy⟩ := has_bits hp
  obtain ⟨_, hbits, heval⟩ := Result.bind_eq_ok.1 h.eval
  cases hbits
  cases heval
  have hvalue := h.value.symm.trans hs.value
  exact ⟨y, hp, hy, (LeafTree.leaf.inj (Option.some.inj hvalue)).symm⟩

/-- The cases are interchanged under an inverted selector. -/
theorem keeps_swapCases {r : Replacement} (hn : w.graph.nodes[id]? = some n)
    (hr : swapCases w.graph n = some r) : Keeps w id r := by
  unfold swapCases at hr
  split at hr
  rotate_left
  · cases hr
  rename_i selector a b hkind hoperands
  split at hr
  rotate_left
  · cases hr
  rename_i p type hselector
  cases hr
  obtain ⟨k, ts, s, us, v, h, hs, hhas, hcases, htypes, hverify⟩ := exists_sel hn hkind hoperands
  cases hcases with
  | cons ha hcases =>
    cases hcases with
    | cons hb hnil =>
      cases hnil
      obtain rfl := width_of_verifySelector hverify
      obtain ⟨rfl, rfl⟩ : _ = n.type ∧ _ = n.type :=
        ⟨htypes _ mem_cons_self, htypes _ (mem_cons_of_mem _ mem_cons_self)⟩
      obtain ⟨y, hy, hyw, rfl⟩ := exists_not hselector hhas
      have hp : w.Has (w.rank id) p (.bits 1) (.leaf y) :=
        ⟨hy.type, hy.value, hy.rank.trans hhas.rank⟩
      refine keeps_one h (.cons hp (.cons hb (.cons ha .nil))) rfl
        (verifyNode_sel_two w.params n.type) ?_
      have heval := h.eval
      rw [hkind, evalNode_sel_two hs] at heval
      rw [evalNode_sel_two hyw, ← heval]
      have hlt := y.isLt
      have hnot := not_val y
      rw [hyw] at hlt hnot
      by_cases hzero : y.val = 0
      · rw [if_pos hzero, if_neg (by omega)]
      · rw [if_neg hzero, if_pos (by omega)]

/-! ### Defaults -/

/-- All ones need as many bits as there are. -/
theorem minBitCountUnsigned_two_pow (k : Nat) : minBitCountUnsigned (2 ^ k - 1) = k := by
  unfold minBitCountUnsigned
  cases k with
  | zero => rfl
  | succ k =>
    have hpos := Nat.two_pow_pos k
    have hpow : 2 ^ (k + 1) = 2 * 2 ^ k := by rw [pow_succ, Nat.mul_comm]
    have hne : 2 ^ (k + 1) - 1 ≠ 0 := by omega
    rw [if_neg hne]
    have hle : k ≤ (2 ^ (k + 1) - 1).log2 := (le_log2 hne).mpr (by omega)
    have hlt : (2 ^ (k + 1) - 1).log2 < k + 1 := (log2_lt hne).mpr (by omega)
    omega

theorem isPowerOfTwo_two_pow (k : Nat) : isPowerOfTwo (2 ^ k) = true := by
  have hpos := Nat.two_pow_pos k
  rw [isPowerOfTwo, and_two_pow_sub_one_eq_mod, mod_self]
  simp

/-- A select with a case for every value of the selector needs no default. -/
theorem verifySelector_all (k : Nat) : verifySelector k (2 ^ k) false = true := by
  simp [verifySelector, minBitCountUnsigned_two_pow, isPowerOfTwo_two_pow]

/-- The default of a select with one more value of the selector is the last case. -/
theorem sel_default {us : List Value} {v : Value} (hlength : us.length = 2 ^ s.width)
    (h : sel s us.dropLast us.getLast? = .ok v) : sel s us none = .ok v := by
  have hlt := s.isLt
  have hpos := Nat.two_pow_pos s.width
  have hcheck : decide (0 < us.length ∧ us.length - 1 < 2 ^ s.width) = true :=
    decide_eq_true ⟨by omega, by omega⟩
  rw [sel, hcheck, checkThat_true, Result.ok_bind, if_neg (by omega)]
  obtain ⟨_, hdrop, h⟩ := Result.bind_eq_ok.1 h
  rw [checkThat_eq_ok, decide_eq_true_iff, length_dropLast] at hdrop
  rw [length_dropLast] at h
  split at h
  · have hlast : s.val = us.length - 1 := by omega
    rw [getLast?_eq_getElem?, ← hlast] at h
    cases hu : us[s.val]? with
    | none =>
      rw [hu] at h
      cases h
    | some u =>
      rw [hu] at h
      exact h
  · rw [getElem?_dropLast, if_pos (by omega)] at h
    exact h

/-- A default that only one selector value reaches becomes a case. -/
theorem sound_defaultToCase (hn : w.graph.nodes[id]? = some n) :
    Sound w id (defaultToCase w.graph n) := by
  unfold defaultToCase
  split
  rotate_left
  · exact sound_none
  rename_i hasDefault selector cases hkind hoperands
  obtain ⟨k, ts, s, us, v, h, hs, hhas, hcases, htypes, hverify⟩ := exists_sel hn hkind hoperands
  have hcount : bitCountOrDie w.graph selector = .ok k := by
    obtain ⟨m, hm, ht⟩ := Option.map_eq_some_iff.mp hhas.type
    rw [bitCountOrDie, hm]
    show m.type.bitCountOrDie = _
    rw [ht]
    rfl
  rw [hcount, Result.ok_bind]
  split
  rotate_left
  · exact sound_none
  rename_i hcond
  obtain ⟨-, hdefault, hlength⟩ := hcond
  subst hdefault
  have hus : us.length = cases.length :=
    (LeafTree.collect_eq_some.1 hcases.values).length_eq.symm
  have hts : ts.length = cases.length :=
    (LeafTree.collect_eq_some.1 hcases.types).length_eq.symm
  refine sound_some (keeps_one h (.cons hhas hcases) rfl ?_ ?_)
  · have hall : ts.all (· == n.type) = true := by
      rw [all_eq_true]
      intro t ht
      exact beq_iff_eq.mpr (htypes t ht)
    have hselector := verifySelector_all k
    have hpos := Nat.two_pow_pos k
    simp only [verifyNode, hall, hts, hlength, hselector, Bool.and_true, Bool.and_eq_true,
      decide_eq_true_iff, Bool.false_eq_true, if_false]
    exact ⟨hpos, hpos⟩
  · have heval := h.eval
    rw [hkind] at heval
    exact sel_default (by rw [hus, hlength, hs]) heval

/-! ### Clamps -/

section

variable (hm : w.Has bound m (.bits k) (.leaf y)) (ho : w.Has bound' o (.bits k) (.leaf z))
include hm ho

/-- Literals that are recognized as sequential differ by one. -/
theorem sequential_spec (h : areSequentialConstants w.graph m o = true) : y.val + 1 = z.val := by
  unfold areSequentialConstants at h
  rw [Bool.and_eq_true] at h
  obtain ⟨-, h⟩ := h
  split at h
  · rename_i c c' hc hc'
    obtain rfl := LeafTree.leaf.inj (eq_of_knownValueAsBits hm hc)
    obtain rfl := LeafTree.leaf.inj (eq_of_knownValueAsBits ho hc')
    rw [beq_iff_eq] at h
    rw [← h]
    have hlt := y.isLt
    have hpow : 2 ^ (y.width + 1) = 2 * 2 ^ y.width := by rw [pow_succ, Nat.mul_comm]
    have hval : y.val % 2 ^ (y.width + 1) = y.val := mod_eq_of_lt (by omega)
    have hnext : (y.val + 1) % 2 ^ (y.width + 1) = y.val + 1 := mod_eq_of_lt (by omega)
    show _ = (y.val % 2 ^ (y.width + 1) + 1) % 2 ^ (y.width + 1)
    rw [hval, hnext]
  · cases h

/-- Literals that are recognized as equal are. -/
theorem equal_spec (h : areEqualConstants w.graph m o = true) : y.val = z.val := by
  unfold areEqualConstants at h
  rw [Bool.and_eq_true] at h
  obtain ⟨-, h⟩ := h
  split at h
  · rename_i c c' hc hc'
    obtain rfl := LeafTree.leaf.inj (eq_of_knownValueAsBits hm hc)
    obtain rfl := LeafTree.leaf.inj (eq_of_knownValueAsBits ho hc')
    exact beq_iff_eq.mp h
  · cases h

end

/-- A value that is kept at most at another. -/
theorem clampHigh_eq {l u : Bits} (hx : x.width = k) (hl : l.width = k) (hu : u.width = k)
    (h : u.val = min x.val l.val) : (if compareBits .ugt x l then l else x) = u := by
  simp only [compareBits, Bits.ult, decide_eq_true_iff]
  split
  · exact ext (hl.trans hu.symm) (by omega)
  · exact ext (hx.trans hu.symm) (by omega)

/-- A value that is kept at least at another. -/
theorem clampLow_eq {l u : Bits} (hx : x.width = k) (hl : l.width = k) (hu : u.width = k)
    (h : u.val = max x.val l.val) : (if compareBits .ult x l then l else x) = u := by
  simp only [compareBits, Bits.ult, decide_eq_true_iff]
  split
  · exact ext (hl.trans hu.symm) (by omega)
  · exact ext (hx.trans hu.symm) (by omega)

/-- The value of the select in the forms with `ugt`, and with `ult`. -/
theorem val_ugt (x y z t : Bits) : (if compareBits .ugt x y then z else t).val =
    if y.val < x.val then z.val else t.val := by
  simp only [compareBits, Bits.ult, decide_eq_true_iff]
  split <;> rfl

theorem val_ult (x y z t : Bits) : (if compareBits .ult x y then z else t).val =
    if x.val < y.val then z.val else t.val := by
  simp only [compareBits, Bits.ult, decide_eq_true_iff]
  split <;> rfl

theorem sel_bit (r : Bool) (u u' : Value) :
    (if (Bits.ofNat 1 r.toNat).val = 0 then u else u') = if r then u' else u := by
  cases r <;> rfl

/-- A clamp has the value of the select. -/
theorem clampOf_value {b c d : Nat} {t : Bits} (ha : w.Has bound a (.bits k) (.leaf x))
    (hb : w.Has bound b (.bits k) (.leaf y)) (hc : w.Has bound' c (.bits k) (.leaf z))
    (hd : w.Has bound' d (.bits k) (.leaf t)) (hx : x.width = k) (hz : z.width = k)
    (ht : t.width = k) (h : clampOf w.graph cmp a b c d = some clamp) :
    clamp.x = a ∧ ∃ l : Bits, w.Has bound' clamp.k (.bits k) (.leaf l) ∧
      (if compareBits (if clamp.isHigh then .ugt else .ult) x l then l else x) =
        if compareBits cmp x y then z else t := by
  have hac : a = c → x = z := by
    rintro rfl
    exact LeafTree.leaf.inj (Option.some.inj (ha.value.symm.trans hc.value))
  have had : a = d → x = t := by
    rintro rfl
    exact LeafTree.leaf.inj (Option.some.inj (ha.value.symm.trans hd.value))
  have hwidth : (if compareBits cmp x y then z else t).width = k := by
    split
    · exact hz
    · exact ht
  unfold clampOf at h
  split at h
  · rename_i hform
    cases h
    obtain ⟨rfl, hform, hseq⟩ := hform
    obtain rfl := had hform
    have hval := sequential_spec hb hc hseq
    refine ⟨rfl, z, hc, clampHigh_eq hx hz hwidth ?_⟩
    rw [val_ugt]
    split <;> omega
  split at h
  · rename_i hform
    cases h
    obtain ⟨rfl, hform, hseq⟩ := hform
    obtain rfl := hac hform
    have hval := equal_spec hb hd hseq
    refine ⟨rfl, t, hd, clampHigh_eq hx ht hwidth ?_⟩
    rw [val_ult]
    split <;> omega
  split at h
  · rename_i hform
    cases h
    obtain ⟨rfl, hform, hseq⟩ := hform
    obtain rfl := hac hform
    have hval := sequential_spec hd hb hseq
    refine ⟨rfl, t, hd, clampHigh_eq hx ht hwidth ?_⟩
    rw [val_ult]
    split <;> omega
  split at h
  · rename_i hform
    cases h
    obtain ⟨rfl, hform, hseq⟩ := hform
    obtain rfl := had hform
    have hval := sequential_spec hc hb hseq
    refine ⟨rfl, z, hc, clampLow_eq hx hz hwidth ?_⟩
    rw [val_ult]
    split <;> omega
  split at h
  · rename_i hform
    cases h
    obtain ⟨rfl, hform, hseq⟩ := hform
    obtain rfl := hac hform
    have hval := equal_spec hb hd hseq
    refine ⟨rfl, t, hd, clampLow_eq hx ht hwidth ?_⟩
    rw [val_ugt]
    split <;> omega
  split at h
  · rename_i hform
    cases h
    obtain ⟨rfl, hform, hseq⟩ := hform
    obtain rfl := hac hform
    have hval := sequential_spec hb hd hseq
    refine ⟨rfl, t, hd, clampLow_eq hx ht hwidth ?_⟩
    rw [val_ugt]
    split <;> omega
  · cases h

theorem equal_self_of_sequential (h : areSequentialConstants g m o = true) :
    areEqualConstants g m m = true ∧ areEqualConstants g o o = true := by
  unfold areSequentialConstants at h
  simp only [Bool.and_eq_true] at h
  obtain ⟨⟨hm, ho⟩, h⟩ := h
  split at h
  · rename_i c c' hc hc'
    exact ⟨by simp [areEqualConstants, hm, hc], by simp [areEqualConstants, ho, hc']⟩
  · cases h

theorem equal_self_of_equal (h : areEqualConstants g m o = true) :
    areEqualConstants g o o = true := by
  unfold areEqualConstants at h
  simp only [Bool.and_eq_true] at h
  obtain ⟨⟨-, ho⟩, h⟩ := h
  split at h
  · rename_i c c' hc hc'
    simp [areEqualConstants, ho, hc']
  · cases h

/-- No constant comes after itself. -/
theorem not_sequential_self (g : Graph) (m : Nat) : areSequentialConstants g m m = false := by
  rw [Bool.eq_false_iff]
  intro h
  unfold areSequentialConstants at h
  rw [Bool.and_eq_true] at h
  obtain ⟨-, h⟩ := h
  split at h
  · rename_i c c' hc hc'
    obtain rfl : c = c' := Option.some.inj (hc.symm.trans hc')
    have hlt := c.isLt
    have hpow : 2 ^ (c.width + 1) = 2 * 2 ^ c.width := by rw [pow_succ, Nat.mul_comm]
    have hval : (c.val % 2 ^ (c.width + 1) + 1) % 2 ^ (c.width + 1) = c.val := beq_iff_eq.mp h
    rw [mod_eq_of_lt (by omega : c.val < 2 ^ (c.width + 1)), mod_eq_of_lt (by omega)]
      at hval
    omega
  · cases h

/-- What is compared, and with what the comparison is selected. -/
theorem clampOf_form {b c d : Nat} (h : clampOf g cmp a b c d = some clamp) :
    (cmp = .ugt ∨ cmp = .ult) ∧ (a = c ∨ a = d) ∧ clamp.x = a ∧ (clamp.k = c ∨ clamp.k = d) ∧
      areEqualConstants g clamp.k clamp.k = true := by
  unfold clampOf at h
  split at h
  · rename_i hform
    cases h
    exact ⟨.inl hform.1, .inr hform.2.1, rfl, .inl rfl, (equal_self_of_sequential hform.2.2).2⟩
  split at h
  · rename_i hform
    cases h
    exact ⟨.inr hform.1, .inl hform.2.1, rfl, .inr rfl, equal_self_of_equal hform.2.2⟩
  split at h
  · rename_i hform
    cases h
    exact ⟨.inr hform.1, .inl hform.2.1, rfl, .inr rfl, (equal_self_of_sequential hform.2.2).1⟩
  split at h
  · rename_i hform
    cases h
    exact ⟨.inr hform.1, .inr hform.2.1, rfl, .inl rfl, (equal_self_of_sequential hform.2.2).1⟩
  split at h
  · rename_i hform
    cases h
    exact ⟨.inl hform.1, .inl hform.2.1, rfl, .inr rfl, equal_self_of_equal hform.2.2⟩
  split at h
  · rename_i hform
    cases h
    exact ⟨.inl hform.1, .inl hform.2.1, rfl, .inr rfl, (equal_self_of_sequential hform.2.2).2⟩
  · cases h

/-- The result of the rule is not a clamp that is looked for. -/
theorem clampOf_canonical (hne : a ≠ k) : clampOf g cmp a k k a = none := by
  simp [clampOf, hne, not_sequential_self]

/-- The nodes around a clamp. -/
structure ClampAt (g : Graph) (n : Node) (clamp : Clamp) (selector : Nat) (s : Node)
    (cmp : CompareOp) (a b c d : Nat) : Prop where
  isBits : n.type.isBits = true
  kind : n.kind = .sel false
  operands : n.operands = [selector, d, c]
  selector : g.nodes[selector]? = some s
  selectorKind : s.kind = .compare cmp
  selectorOperands : s.operands = [a, b]
  form : clampOf g cmp a b c d = some clamp

/-- What the pattern of a clamp has matched. -/
theorem findClamp_spec (hn : w.graph.nodes[id]? = some n) (h : findClamp w.graph n = some clamp) :
    ∃ selector s cmp a b c d, ClampAt w.graph n clamp selector s cmp a b c d := by
  unfold findClamp at h
  split at h
  · cases h
  rename_i hbits
  split at h
  rotate_left
  · cases h
  rename_i hasDefault selector rest hkind hoperands
  split at h
  rotate_left
  · cases h
  rename_i d c s hcases hs
  split at h
  rotate_left
  · cases h
  rename_i cmp a b hskind hsoperands
  have hbits' : n.type.isBits = true := by simpa using hbits
  cases hasDefault with
  | false =>
    simp only [Bool.false_eq_true, if_false] at hcases
    exact ⟨selector, s, cmp, a, b, c, d, hbits', hkind, by rw [hoperands, hcases], hs, hskind,
      hsoperands, h⟩
  | true =>
    -- A comparison has one bit, so there would be no value of it left for the default.
    obtain ⟨k, ts, x, us, v, -, -, hhas, hrest, -, hverify⟩ := exists_sel hn hkind hoperands
    obtain ⟨t, u, u', r, -, -, -, htype, -⟩ := exists_compare hs hskind hsoperands
    have hk := hhas.type
    rw [hs, Option.map_some, htype] at hk
    obtain rfl : k = 1 := by simpa using hk.symm
    have hlength : ts.length = rest.length :=
      (LeafTree.collect_eq_some.1 hrest.types).length_eq.symm
    have hdrop := congrArg List.length hcases
    simp only [if_true, length_dropLast, length_cons, length_nil] at hdrop
    rw [if_pos rfl, hlength, hdrop, not_verifySelector_one] at hverify
    cases hverify

/-- A clamp against literals keeps its value when it becomes canonical. -/
theorem sound_maybeCanonicalizeClamp (hn : w.graph.nodes[id]? = some n)
    (hliteral : ∀ clamp, findClamp w.graph n = some clamp → isLiteral w.graph clamp.k = true) :
    Sound w id (maybeCanonicalizeClamp w.graph n) := by
  unfold maybeCanonicalizeClamp
  cases hfind : findClamp w.graph n with
  | none => exact sound_none
  | some clamp =>
    obtain ⟨selector, s, cmp, a, b, c, d, hat⟩ := findClamp_spec hn hfind
    obtain ⟨k, hk⟩ := IrType.eq_bits_of_isBits hat.isBits
    obtain ⟨k', ts, x', us, v, h, hx', hhas, hcases, htypes, hverify⟩ :=
      exists_sel hn hat.kind hat.operands
    obtain ⟨t, u, u', r, hs, ha, hb, hstype, hcompare⟩ :=
      exists_compare hat.selector hat.selectorKind hat.selectorOperands
    obtain ⟨hcmp, hac, hx, hkcd, -⟩ := clampOf_form hat.form
    cases hcases with
    | cons hd hcases =>
      cases hcases with
      | cons hc hnil =>
        cases hnil
        have hdtype := htypes _ mem_cons_self
        have hctype := htypes _ (mem_cons_of_mem _ mem_cons_self)
        rw [hk] at hctype hdtype
        subst hctype hdtype
        have ht : t = .bits k := by
          rcases hac with rfl | rfl
          · exact Option.some.inj (ha.type.symm.trans hc.type)
          · exact Option.some.inj (ha.type.symm.trans hd.type)
        subst ht
        have hk' := hhas.type
        rw [hat.selector, Option.map_some, hstype, Option.some.injEq, IrType.bits.injEq] at hk'
        subst hk'
        obtain ⟨x, rfl, hxk⟩ := has_bits ha
        obtain ⟨y, rfl, hyk⟩ := has_bits hb
        obtain ⟨z, rfl, hzk⟩ := has_bits hc
        obtain ⟨q, rfl, hqk⟩ := has_bits hd
        have hr : r = compareBits cmp x y := by
          rcases hcmp with rfl | rfl
          · exact (Except.ok.inj hcompare).symm
          · exact (Except.ok.inj hcompare).symm
        have hselector : x' = Bits.ofNat 1 r.toNat :=
          LeafTree.leaf.inj (Option.some.inj (hhas.value.symm.trans hs.value))
        have heval := h.eval
        rw [hat.kind, evalNode_sel_two hx', hselector, sel_bit] at heval
        obtain ⟨rfl, l, hl, hvalue⟩ := clampOf_value ha hb hc hd hxk hzk hqk hat.form
        have ha' : w.Has (w.rank id) clamp.x (.bits k) (.leaf x) :=
          ⟨ha.type, ha.value, ha.rank.trans hhas.rank⟩
        have hcompare' : compareOp (if clamp.isHigh then .ugt else .ult)
            (.leaf x) (.leaf l) =
            .ok (compareBits (if clamp.isHigh then .ugt else .ult) x l) := by
          split <;> rfl
        obtain ⟨w₁, hgraph, hle, hnew⟩ := exists_snoc
          (m := ⟨.compare (if clamp.isHigh then .ugt else .ult), [clamp.x, clamp.k], .bits 1⟩)
          (.cons ha' (.cons hl .nil)) (verifyNode_compare w.params _ _)
          (evalNode_compare hcompare') (Value.conforms_leaf_bits.2 rfl)
        dsimp only
        rw [hliteral clamp hfind, checkThat_true, Result.ok_bind]
        refine sound_some (keeps_two h hgraph hle
          (.cons hnew (.cons (ha'.mono hle) (.cons (hl.mono hle) .nil))) rfl ?_ ?_)
        · rw [hk]
          exact verifyNode_sel_two w₁.params _
        · rw [evalNode_sel_two rfl, sel_bit, ← heval, hr]
          have hleaf := congrArg (fun b : Bits => (Except.ok (LeafTree.leaf b) : Result Value))
            hvalue
          simp only [apply_ite LeafTree.leaf] at hleaf
          exact hleaf

/-! ### All rules -/

/-- The constant of a clamp is a literal. -/
def ClampsLiteral (g : Graph) (id : Nat) : Prop :=
  ∀ n, g.nodes[id]? = some n → ∀ clamp, findClamp g n = some clamp → isLiteral g clamp.k = true

/-- A node is canonicalized without an error, and keeps its value. -/
theorem sound_canonicalizeNode (hid : id < w.graph.nodes.length)
    (hclamps : ClampsLiteral w.graph id) : Sound w id (canonicalizeNode w.graph id) := by
  obtain ⟨n, hn⟩ : ∃ n, w.graph.nodes[id]? = some n := ⟨_, getElem?_eq_getElem hid⟩
  rw [canonicalizeNode, hn]
  have hoption : ∀ r : Option Replacement, (∀ r', r = some r' → Keeps w id r') →
      Sound w id (.ok r) := fun r hr => ⟨r, rfl, hr⟩
  refine sound_firstOf fun rule hrule => ?_
  simp only [mem_cons, not_mem_nil, or_false] at hrule
  rcases hrule with rfl | rfl | rfl | rfl | rfl | rfl | rfl | rfl
  · exact hoption _ fun r hr => keeps_moveConstantRight hn hr
  · exact hoption _ fun r hr => keeps_reverseComparison hn hr
  · exact sound_strictComparison hn
  · exact sound_maybeCanonicalizeClamp hn (hclamps n hn)
  · exact sound_addNegated hn
  · exact sound_removeExtension hn
  · exact hoption _ fun r hr => keeps_swapCases hn hr
  · exact sound_defaultToCase hn

end Canonicalization

end Xls

import Xls.Reassociation.Expressions

/-!
# Xls.Reassociation.FullWidth

A full-width addition computes the exact sum of its leaves, read as signed or unsigned
numbers according to the extensions. The new tree computes it as well
(`reassociateFullWidth_spec`): a node narrower than the root holds the exact sum of its
leaves, since it has one bit more than its widest operand, and a node of the width of the
root holds the sum modulo a power of two.
-/

namespace Xls.Reassociation

open Bits List LeafTree Int
open Xls.Graph (Build World)
open Xls.Graph.World (ensures_pure ensures_bind ensures_get ensures_lift extended)

variable {env : Env} {args : List Value} {w : World env args} {b : ℚ} {op : ExtendOp}

/-! ### Exact sums -/

/-- The number that an extension keeps. -/
def toNumber (op : ExtendOp) (x : Bits) : Int :=
  match op with
  | .signExt => x.toInt
  | .zeroExt => x.val

/-- The numbers of the bits of a width. -/
def Fits (op : ExtendOp) (k : Nat) (i : Int) : Prop :=
  match op with
  | .signExt => FitsSigned k i
  | .zeroExt => 0 ≤ i ∧ i < (2 ^ k : Nat)

theorem fits_toNumber (op : ExtendOp) (x : Bits) : Fits op x.width (toNumber op x) := by
  cases op with
  | signExt => exact fitsSigned_toInt x
  | zeroExt =>
    have hlt : (x.val : Int) < (2 ^ x.width : Nat) := by exact_mod_cast x.isLt
    exact ⟨natCast_nonneg _, hlt⟩

variable {k id : Nat} {x : Bits}

/-- A number that fits a width fits a greater one. -/
theorem Fits.mono {n : Nat} {i : Int} (h : Fits op k i) (hkn : k ≤ n) : Fits op n i := by
  have hpow : ((2 ^ k : Nat) : Int) ≤ (2 ^ n : Nat) := by
    exact_mod_cast Nat.pow_le_pow_right (by omega) hkn
  cases op with
  | signExt =>
    obtain ⟨hlo, hhi⟩ := h
    exact ⟨by omega, by omega⟩
  | zeroExt =>
    obtain ⟨hlo, hhi⟩ := h
    exact ⟨hlo, by omega⟩

/-- One more bit holds the carry. -/
theorem Fits.add {i j : Int} (hi : Fits op k i) (hj : Fits op k j) : Fits op (k + 1) (i + j) := by
  have hpow : ((2 ^ (k + 1) : Nat) : Int) = 2 * (2 ^ k : Nat) := by
    rw [pow_succ]
    push_cast
    ring
  cases op with
  | _ =>
    obtain ⟨hlo, hhi⟩ := hi
    obtain ⟨hlo', hhi'⟩ := hj
    exact ⟨by omega, by omega⟩

@[simp] theorem extended_width (op : ExtendOp) (k : Nat) (x : Bits) :
    (extended op k x).width = k := by
  cases op <;> rfl

theorem toNumber_extended (h : x.width ≤ k) : toNumber op (extended op k x) = toNumber op x := by
  cases op with
  | signExt => exact toInt_ofInt (Fits.mono (fits_toNumber .signExt x) h)
  | zeroExt =>
    unfold toNumber extended
    dsimp only
    rw [zeroExtend_val h]

/-- The number has the residue of the bits. -/
theorem intCast_toNumber (op : ExtendOp) (h : x.width = k) :
    (toNumber op x : ZMod (2 ^ k)) = residue k x := by
  cases op with
  | signExt => exact intCast_toInt h
  | zeroExt => exact cast_natCast _

/-- An addition whose sum fits is exact. -/
theorem toNumber_add {y : Bits} (h : x.width = y.width)
    (hfits : Fits op x.width (toNumber op x + toNumber op y)) :
    toNumber op (x.add y) = toNumber op x + toNumber op y := by
  cases op with
  | signExt =>
    have heq : x.add y = Bits.ofInt x.width (x.toInt + y.toInt) := by
      rw [BitsOps.ofInt_add_toInt x y h]
      unfold Bits.add
      rw [← ofInt_natCast, natCast_add]
    unfold toNumber
    dsimp only
    rw [heq]
    exact toInt_ofInt hfits
  | zeroExt =>
    have hlt : x.val + y.val < 2 ^ x.width := by
      have hlt' := hfits.2
      unfold toNumber at hlt'
      dsimp only at hlt'
      exact_mod_cast hlt'
    unfold toNumber
    dsimp only
    rw [add_val, Nat.mod_eq_of_lt hlt, natCast_add]

/-! ### The nodes of the new tree -/

/-- What a node of the new tree is worth, under a root of the width `k`. -/
def HoldsSum (op : ExtendOp) (k : Nat) (b : ℚ) (w : World env args) (id : Nat) (s : Int) : Prop :=
  ∃ x, w.Holds b id x ∧ x.width ≤ k ∧ (op = .zeroExt ∨ 0 < x.width) ∧
    (toNumber op x : ZMod (2 ^ k)) = s ∧ (x.width < k → toNumber op x = s)

/-- A full width sum has a bit more than its operands, up to the width of the root. -/
theorem newFullWidthNode_spec {i j : Nat} {y : Bits} (hi : w.Holds b i x) (hj : w.Holds b j y)
    (hx : op = .zeroExt ∨ 0 < x.width) (hy : op = .zeroExt ∨ 0 < y.width) (hxk : x.width ≤ k)
    (hyk : y.width ≤ k) :
    w.Ensures (newFullWidthNode op k i j) fun w' id => ∃ n, n = min (max x.width y.width + 1) k ∧
      w'.Holds b id ((extended op n x).add (extended op n y)) := by
  refine ensures_bind (Graph.World.ensures_bitCountOrDie hi) fun w₁ lw h₁ hlw => ?_
  refine ensures_bind (Graph.World.ensures_bitCountOrDie (hj.mono h₁)) fun w₂ rw h₂ hrw => ?_
  subst hlw hrw
  have hxn : x.width ≤ min (max x.width y.width + 1) k := by omega
  have hyn : y.width ≤ min (max x.width y.width + 1) k := by omega
  have h₁₂ := h₁.trans h₂
  refine ensures_bind (Graph.World.ensures_extend (hi.mono h₁₂) hxn hx) fun w₃ l h₃ hl => ?_
  refine ensures_bind (Graph.World.ensures_extend (hj.mono (h₁₂.trans h₃)) hyn hy)
    fun w₄ r h₄ hr => ?_
  refine (Graph.World.ensures_add (hl.mono h₄) hr (by simp)).imp fun w₅ id _ hid => ?_
  exact ⟨_, rfl, hid⟩

/-- No node of the new tree drops a carry that the root keeps. -/
theorem combines_fullWidth (op : ExtendOp) (hk : 0 < k) (b : ℚ) :
    Combines (HoldsSum op k b : World env args → Nat → Int → Prop) (newFullWidthNode op k) where
  mono := by
    rintro w w' i s hle ⟨x, hx, hrest⟩
    exact ⟨x, hx.mono hle, hrest⟩
  combine := by
    rintro w i j s t ⟨x, hx, hxk, hxop, hxs, hxe⟩ ⟨y, hy, hyk, hyop, hyt, hye⟩
    refine (newFullWidthNode_spec hx hy hxop hyop hxk hyk).imp fun w' id _ hid => ?_
    obtain ⟨n, hn, hid⟩ := hid
    have hxn : x.width ≤ n := by omega
    have hyn : y.width ≤ n := by omega
    have hwidth : (extended op n x).width = (extended op n y).width := by simp
    have hexact : n < k →
        toNumber op ((extended op n x).add (extended op n y)) = s + t := by
      intro hnk
      have hfits : Fits op n (toNumber op x + toNumber op y) := by
        have hmax : n = max x.width y.width + 1 := by omega
        rw [hmax]
        exact Fits.add ((fits_toNumber op x).mono (le_max_left _ _))
          ((fits_toNumber op y).mono (le_max_right _ _))
      rw [toNumber_add hwidth, toNumber_extended hxn, toNumber_extended hyn, hxe (by omega),
        hye (by omega)]
      rw [extended_width, toNumber_extended hxn, toNumber_extended hyn]
      exact hfits
    refine ⟨_, hid, ?_, .inr ?_, ?_, ?_⟩
    · rw [add_width, extended_width]
      omega
    · rw [add_width, extended_width]
      omega
    · by_cases hnk : n = k
      · subst hnk
        rw [intCast_toNumber op (by simp), residue_add (by simp),
          ← intCast_toNumber op (by simp), ← intCast_toNumber op (by simp),
          toNumber_extended hxk, toNumber_extended hyk, hxs, hyt, cast_add]
      · rw [hexact (by omega)]
    · rw [add_width, extended_width]
      exact hexact

/-- The new tree has the value of the root after it is extended. -/
theorem extendRoot_spec (hxk : x.width = k) (h : HoldsSum op k b w id (toNumber op x)) :
    w.Ensures (extendRoot op k id) fun w' root => w'.Holds b root x := by
  obtain ⟨y, hy, hyk, hyop, hys, hye⟩ := h
  unfold extendRoot
  refine ensures_bind (Graph.World.ensures_bitCountOrDie hy) fun w₁ yw h₁ hyw => ?_
  subst hyw
  split
  · rename_i hlt
    refine (Graph.World.ensures_extend (hy.mono h₁) hyk hyop).imp fun w₂ root _ hroot => ?_
    have heq : extended op k y = x := by
      refine eq_of_residue (extended_width op k y) hxk ?_
      rw [← intCast_toNumber op (extended_width op k y), ← intCast_toNumber op hxk,
        toNumber_extended hyk, hye hlt]
    rwa [heq] at hroot
  · have hyk' : y.width = k := by omega
    have heq : y = x := by
      refine eq_of_residue hyk' hxk ?_
      rw [← intCast_toNumber op hyk', ← intCast_toNumber op hxk, hys]
    rw [heq] at hy
    exact ensures_pure fun w₂ h₂ => hy.mono (h₁.trans h₂)

/-! ### Gathering the leaves -/

theorem verify_extend {params : List IrType} {t type : IrType}
    (h : verifyNode params (.extend op k) [t] type = true) :
    ∃ v, t = .bits v ∧ v ≤ k ∧ (op = .zeroExt ∨ 0 < v) ∧ type = .bits k := by
  cases t with
  | bits v =>
    simp only [verifyNode, Bool.and_eq_true, decide_eq_true_eq, Bool.or_eq_true, beq_iff_eq] at h
    exact ⟨v, rfl, h.1.1, h.1.2, h.2⟩
  | _ => cases h

/-- What an extension node says of its operand. -/
theorem extension_spec {e a : Nat} (h : extensionOf w.graph e = some (op, a)) :
    ∃ y z, w.Holds (w.rank e) a y ∧ w.Holds (w.rank e + 1) e z ∧ y.width ≤ z.width ∧
      (op = .zeroExt ∨ 0 < y.width) ∧ toNumber op z = toNumber op y := by
  unfold extensionOf at h
  split at h
  rotate_left
  · cases h
  rename_i n hn
  split at h
  rotate_left
  · cases h
  rename_i op' k a' hk ha
  cases h
  obtain ⟨types, htypes, hverify⟩ := w.verified e n hn
  unfold operandTypes at htypes
  rw [ha, collect] at htypes
  cases hta : w.graph.nodes[a]?.map Node.type with
  | none =>
    rw [hta] at htypes
    cases htypes
  | some t =>
    rw [hta] at htypes
    cases htypes
    rw [hk] at hverify
    obtain ⟨v, rfl, hvk, hpos, ht⟩ := verify_extend hverify
    have hrank := w.ranked e n hn a (by rw [ha]; exact mem_singleton.2 rfl)
    obtain ⟨y, rfl, hy⟩ := Graph.World.holds_of_type hta hrank
    have htype : w.graph.nodes[e]?.map Node.type = some (.bits k) := by
      rw [hn, Option.map_some, ht]
    obtain ⟨z, hzw, hz⟩ := Graph.World.holds_of_type htype (lt_add_one (w.rank e))
    have heq : z = extended op k y := by
      obtain ⟨ops, hops, heval⟩ := hz.eval hn
      rw [ha, collect, hy.value] at hops
      cases hops
      rw [hk] at heval
      change (Interpreter.extendOp op k y >>= fun r => pure (LeafTree.leaf r)) = _ at heval
      obtain ⟨r, hr, heval⟩ := Result.bind_eq_ok.1 heval
      cases heval
      obtain ⟨-, -, hr⟩ := Result.bind_eq_ok.1 hr
      cases op with
      | _ =>
        cases hr
        rfl
    refine ⟨y, z, hy, hz, by rwa [hzw], hpos, ?_⟩
    rw [heq, toNumber_extended hvk]

theorem flatBitCount_of_holds (h : w.Holds b id x) : flatBitCount w.graph id = x.width := by
  obtain ⟨n, hn, ht⟩ := h.node
  unfold flatBitCount
  rw [hn]
  dsimp only
  rw [ht]
  simp [IrType.flatBitCount, IrType.shape, LeafTree.leaves]

/-- A proper extension widens its operand and keeps its number. -/
theorem isProperExtension_spec {e : Nat} (h : isProperExtension w.graph op e = true) :
    ∃ a y z, extensionOf w.graph e = some (op, a) ∧ w.Holds (w.rank e) a y ∧
      w.Holds (w.rank e + 1) e z ∧ y.width < z.width ∧ (op = .zeroExt ∨ 0 < y.width) ∧
      toNumber op z = toNumber op y := by
  unfold isProperExtension at h
  split at h
  · rename_i op' a hext
    rw [Bool.and_eq_true, decide_eq_true_eq, decide_eq_true_eq] at h
    obtain ⟨rfl, hlt⟩ := h
    obtain ⟨y, z, hy, hz, -, hpos, hnum⟩ := extension_spec hext
    rw [flatBitCount_of_holds hy, flatBitCount_of_holds hz] at hlt
    exact ⟨a, y, z, hext, hy, hz, hlt, hpos, hnum⟩
  · cases h

/-- A full-width addition is exact. -/
theorem fullWidthAddition_spec (hx : w.Holds b id x) {n : Node} (hn : w.graph.nodes[id]? = some n)
    (h : fullWidthAddition w.graph n = some op) :
    ∃ e e' a a' y y', n.operands = [e, e'] ∧ extensionOf w.graph e = some (op, a) ∧
      extensionOf w.graph e' = some (op, a') ∧ w.rank e < w.rank id ∧ w.rank e' < w.rank id ∧
      w.Holds (w.rank e) a y ∧ w.Holds (w.rank e') a' y' ∧ y.width < x.width ∧
      y'.width < x.width ∧ (op = .zeroExt ∨ 0 < y.width) ∧ (op = .zeroExt ∨ 0 < y'.width) ∧
      toNumber op x = toNumber op y + toNumber op y' := by
  obtain ⟨ops, hops, heval⟩ := hx.eval hn
  unfold fullWidthAddition at h
  split at h
  rotate_left
  · cases h
  rename_i o os hk ho
  split at h
  rotate_left
  · cases h
  split at h
  rotate_left
  · cases h
  rename_i hall
  cases h
  rw [hk] at heval
  have hlen := (collect_eq_some.1 hops).length_eq
  rw [(sums_add env args 0).binary heval] at hlen
  obtain ⟨e, e', hee⟩ := length_eq_two.1 hlen
  rw [← ho, hee, all_eq_true] at hall
  have hrank : ∀ i ∈ [e, e'], w.rank i < w.rank id := by
    intro i hi
    rw [← hee] at hi
    exact w.ranked id n hn i hi
  obtain ⟨a, y, z, hext, hy, hz, hlt, hpos, hnum⟩ := isProperExtension_spec (hall e (by simp))
  obtain ⟨a', y', z', hext', hy', hz', hlt', hpos', hnum'⟩ :=
    isProperExtension_spec (hall e' (by simp))
  rw [hee, collect, collect, hz.value, hz'.value] at hops
  cases hops
  change (Interpreter.binOp .add z z' >>= fun r => pure (LeafTree.leaf r)) = _ at heval
  obtain ⟨r, hr, heval⟩ := Result.bind_eq_ok.1 heval
  cases heval
  obtain ⟨_, hcheck, hr⟩ := Result.bind_eq_ok.1 hr
  cases hr
  have hzz : z.width = z'.width := beq_iff_eq.1 (checkThat_eq_ok.1 hcheck)
  refine ⟨e, e', a, a', y, y', hee, hext, hext', hrank e (by simp), hrank e' (by simp), hy, hy',
    hlt, by rw [add_width, hzz]; exact hlt', hpos, hpos', ?_⟩
  have hfits : Fits op z.width (toNumber op z + toNumber op z') := by
    rw [hnum, hnum']
    refine (Fits.add ((fits_toNumber op y).mono (le_max_left _ _))
      ((fits_toNumber op y').mono (le_max_right _ _))).mono ?_
    omega
  rw [toNumber_add hzz hfits, hnum, hnum']

/-- A leaf is narrower than the root. -/
def LeafHolds (op : ExtendOp) (k : Nat) (b : ℚ) (w : World env args) (id : Nat) (s : Int) : Prop :=
  ∃ x, w.Holds b id x ∧ x.width < k ∧ (op = .zeroExt ∨ 0 < x.width) ∧ toNumber op x = s

theorem LeafHolds.weaken {b' : ℚ} {s : Int} (hb : b ≤ b') (h : LeafHolds op k b w id s) :
    LeafHolds op k b' w id s := by
  obtain ⟨x, hx, hrest⟩ := h
  exact ⟨x, hx.weaken hb, hrest⟩

theorem LeafHolds.holdsSum {s : Int} (h : LeafHolds op k b w id s) : HoldsSum op k b w id s := by
  obtain ⟨x, hx, hlt, hpos, rfl⟩ := h
  exact ⟨x, hx, hlt.le, hpos, rfl, fun _ => rfl⟩

/-- Gathering returns, and the leaves sum up to the number of the node, which is a leaf
itself or a full-width addition. -/
theorem gatherFullWidthAdditionLeaves_spec {fuel : Nat} (hx : w.Holds b id x) (hxk : x.width ≤ k)
    (hfuel : w.graph.below w.rank id < fuel) (hleaf : LeafHolds op k b w id (toNumber op x) ∨
      ∃ n, w.graph.nodes[id]? = some n ∧ fullWidthAddition w.graph n = some op) :
    ∃ leaves interior depth,
      gatherFullWidthAdditionLeaves w.graph op fuel id = .ok (leaves, interior, depth) ∧
      0 < leaves.length ∧ ∃ ss,
        Forall₂ (LeafHolds op k (if interior = [] then b else w.rank id) w) leaves ss ∧
        ss.sum = toNumber op x := by
  induction fuel generalizing b id x with
  | zero => exact absurd hfuel (Nat.not_lt_zero _)
  | succ fuel ih =>
    obtain ⟨n, hn, -⟩ := hx.node
    rw [gatherFullWidthAdditionLeaves, hn, show derefOption (some n) = .ok n from rfl,
      Result.ok_bind]
    split
    · rename_i hnot
      have hleaf' : LeafHolds op k b w id (toNumber op x) := by
        refine hleaf.resolve_right ?_
        rintro ⟨m, hm, hfull⟩
        cases hn.symm.trans hm
        exact hnot hfull
      refine ⟨[id], [], 0, rfl, Nat.one_pos, [_], ?_, sum_singleton⟩
      rw [if_pos rfl]
      exact Forall₂.cons hleaf' Forall₂.nil
    · rename_i hfull
      rw [ne_eq, Decidable.not_not] at hfull
      obtain ⟨e, e', a, a', y, y', hee, hext, hext', he, he', hy, hy', hlt, hlt', hpos, hpos',
        hnum⟩ := fullWidthAddition_spec hx hn hfull
      -- an operand of an extension is a leaf, unless it and the extension have no other use
      have hvisit : ∀ {e a : Nat} {y : Bits}, extensionOf w.graph e = some (op, a) →
          w.rank e < w.rank id → w.Holds (w.rank e) a y → y.width < x.width →
          (op = .zeroExt ∨ 0 < y.width) → ∃ leaves interior depth,
            ((do
              let extended ← derefOption (extensionOf w.graph e)
              if w.graph.hasSingleUse e && w.graph.hasSingleUse extended.2 then do
                let r ← gatherFullWidthAdditionLeaves w.graph op fuel extended.2
                return (r.1, r.2.1, 1 + r.2.2)
              else return ([extended.2], [], 1)) : Result (List Nat × List Nat × Nat)) =
              .ok (leaves, interior, depth) ∧
            0 < leaves.length ∧ ∃ ss,
              Forall₂ (LeafHolds op k (w.rank id) w) leaves ss ∧
              ss.sum = toNumber op y := by
        intro e a y hext he hy hlt hpos
        have hleaf' : LeafHolds op k (w.rank e) w a (toNumber op y) :=
          ⟨y, hy, by omega, hpos, rfl⟩
        rw [hext, show derefOption (some (op, a)) = .ok (op, a) from rfl, Result.ok_bind]
        dsimp only
        split
        · have hbelow := Graph.below_lt hy.lt (hy.rank.trans he)
          obtain ⟨leaves, interior, depth, hrun, hne, ss, hss, hsum⟩ :=
            ih hy (by omega) (by omega) (.inl hleaf')
          refine ⟨leaves, interior, 1 + depth, by rw [hrun]; rfl, hne, ss, ?_, hsum⟩
          refine hss.imp fun _ _ => LeafHolds.weaken ?_
          split
          · exact he.le
          · exact (hy.rank.trans he).le
        · exact ⟨[a], [], 1, rfl, Nat.one_pos, [_],
            Forall₂.cons (hleaf'.weaken he.le) Forall₂.nil, sum_singleton⟩
      obtain ⟨ls, is, d, hrun, hne, ss, hss, hsum⟩ := hvisit hext he hy hlt hpos
      obtain ⟨ls', is', d', hrun', -, ts, hts, hsum'⟩ := hvisit hext' he' hy' hlt' hpos'
      refine ⟨ls ++ ls', id :: (is ++ is'), max d d', ?_, ?_, ss ++ ts, ?_, ?_⟩
      · rw [hee]
        dsimp only
        rw [hrun, Result.ok_bind]
        dsimp only
        rw [hrun']
        rfl
      · rw [length_append]
        omega
      · rw [if_neg (cons_ne_nil _ _)]
        exact rel_append hss hts
      · rw [sum_append, hsum, hsum', hnum]

/-- Replacing a full-width addition keeps the values. -/
theorem reassociateFullWidth_spec (hx : w.Holds b id x) (hpos : 0 < x.width)
    {leaves interior : List Nat} {depth : Nat} (hne : 0 < leaves.length) {ss : List Int}
    (hsum : ss.sum = toNumber op x)
    (hss : Forall₂ (LeafHolds op x.width (if interior = [] then b else w.rank id) w) leaves ss) :
    w.Ensures (reassociateFullWidth id op x.width leaves interior depth) fun _ _ => True := by
  refine ensures_get fun w₁ h₁ => ?_
  split
  · exact ensures_pure fun _ _ => trivial
  · rename_i hgood
    have hinterior : interior ≠ [] := by
      rintro rfl
      exact hgood rfl
    rw [if_neg hinterior] at hss
    have hcombines : Combines (HoldsSum op x.width (w.rank id) : World env args → Nat → Int → Prop)
        (newFullWidthNode op x.width) := combines_fullWidth op hpos _
    have hitems := hcombines.items_mono h₁ (hss.imp fun _ _ => LeafHolds.holdsSum)
    refine ensures_bind (hcombines.buildTree w₁.graph hne hitems) fun w₂ tree h₂ htree => ?_
    rw [hsum] at htree
    refine ensures_bind (extendRoot_spec rfl htree) fun w₃ root h₃ hroot => ?_
    have hle := (h₁.trans h₂).trans h₃
    rw [← hle.rank id hx.lt] at hroot
    refine ensures_bind (Graph.World.ensures_replaceUsesWith (hx.mono hle) hroot) fun _ _ _ _ => ?_
    exact ensures_pure fun _ _ => trivial

end Xls.Reassociation

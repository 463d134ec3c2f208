import Xls.Canonicalization.Selects
import Xls.Graph.Nodes
import Xls.OneBitMux

/-!
# Xls.OneBitMux.Sound

When the rules for selects return (`oneBitMux_returns`). A one-bit select that the verifier
accepts has two cases and no default, or one case and a default. The rules are sound for the
first shape; on the second the rewrite into gates fails its check, so each function fails
exactly where no rule before removes a select of that shape.
-/

namespace Xls

open List
open Graph (World)
open Graph.World

namespace OneBitMux

open Canonicalization (At Operands exists_at has_bits)
open ArithSimplification (Engine)

variable {env : Env} {args : List Value} {w : World env args} {id : Nat} {n : Node} {sel : Select}

/-- What the engine knows is the value of the node. -/
def SoundFor (e : Engine) (w : World env args) : Prop :=
  ∀ (i : Nat) (x : Bits), e.isFullyKnown i = true → w.vals[i]? = some (.leaf x) →
    e.knownValueAsBits i = some x

/-! ### Accepted selects -/

/-- A select with the values of its selector, its cases and its default. -/
structure SelectAt (w : World env args) (id : Nat) (n : Node) (sel : Select) (s : Bits)
    (us : List Value) (ud : Option Value) (v : Value) : Prop where
  operands : n.operands = sel.selector :: (sel.cases ++ sel.defaultValue.toList)
  selector : w.Has (w.rank id) sel.selector (.bits s.width) (.leaf s)
  cases : Forall₂ (fun c u => w.Has (w.rank id) c n.type u) sel.cases us
  default : Option.Rel (fun d u => w.Has (w.rank id) d n.type u) sel.defaultValue ud
  verified : verifySelector s.width sel.cases.length sel.defaultValue.isSome = true
  pos : 0 < sel.cases.length
  has : w.Has (w.rank id + 1) id n.type v
  eval : Interpreter.sel s us ud = .ok v

theorem forall₂_has {bound : ℚ} {t : IrType} {os : List Nat} {ts : List IrType} {us : List Value}
    (h : Operands w bound os ts us) (ht : ∀ t' ∈ ts, t' = t) :
    Forall₂ (fun c u => w.Has bound c t u) os us := by
  induction h with
  | nil => exact .nil
  | cons h _ ih =>
    obtain ⟨rfl, hts⟩ := forall_mem_cons.mp ht
    exact .cons h (ih hts)

/-- The cases and the default among the operands after the selector. -/
theorem forall₂_dropLast {α β : Type} {R : α → β → Prop} {l : List α} {l' : List β}
    (h : Forall₂ R l l') :
    Forall₂ R l.dropLast l'.dropLast ∧ Option.Rel R l.getLast? l'.getLast? := by
  induction h with
  | nil => exact ⟨.nil, .none⟩
  | @cons a b l l' hab h ih =>
    cases h with
    | nil => exact ⟨.nil, .some hab⟩
    | cons hab' h => exact ⟨.cons hab ih.1, by simpa using ih.2⟩

/-- A select node with its selector, cases and values. -/
theorem exists_select (hn : w.graph.nodes[id]? = some n) (hsel : asSelect n = some sel) :
    ∃ s us ud v, SelectAt w id n sel s us ud v := by
  obtain ⟨types, ops, v, h⟩ := exists_at hn
  have hverify := h.verified
  have heval := h.eval
  have hops := h.operands
  unfold asSelect at hsel
  split at hsel
  · -- a select with a default, the last operand
    rename_i selector rest hkind hoperands
    cases hsel
    rw [hoperands] at hops
    rw [hkind] at hverify heval
    cases hops with
    | @cons _ t u _ ts us hs hrest =>
      cases t with
      | bits k =>
        obtain ⟨s, rfl, rfl⟩ := has_bits hs
        simp only [verifyNode, Bool.and_eq_true, all_eq_true, beq_iff_eq,
          decide_eq_true_eq, if_true] at hverify
        obtain ⟨⟨⟨hpos, hcount⟩, hselector⟩, htypes⟩ := hverify
        have hall := forall₂_has hrest htypes
        obtain ⟨hcases, hdefault⟩ := forall₂_dropLast hall
        have hlength : rest.length = ts.length := by
          rw [← LeafTree.collect_eq_some.1 hrest.types |>.length_eq]
        have hne : rest ≠ [] := by
          intro hnil
          rw [hnil] at hlength
          rw [← hlength] at hpos
          exact absurd hpos (lt_irrefl 0)
        refine ⟨s, us.dropLast, us.getLast?, v, ⟨?_, hs, hcases, hdefault, ?_, ?_, h.has, heval⟩⟩
        · rw [hoperands, getLast?_eq_some_getLast hne]
          simp [dropLast_append_getLast]
        · rw [length_dropLast, hlength, getLast?_eq_some_getLast hne]
          exact hselector
        · rw [length_dropLast, hlength]
          exact hcount
      | _ => simp [verifyNode] at hverify
  · rename_i selector rest hkind hoperands
    cases hsel
    rw [hoperands] at hops
    rw [hkind] at hverify heval
    cases hops with
    | @cons _ t u _ ts us hs hrest =>
      cases t with
      | bits k =>
        obtain ⟨s, rfl, rfl⟩ := has_bits hs
        simp only [verifyNode, Bool.and_eq_true, all_eq_true, beq_iff_eq,
          decide_eq_true_eq] at hverify
        obtain ⟨⟨⟨hpos, hcount⟩, hselector⟩, htypes⟩ := hverify
        have hlength : rest.length = ts.length := by
          rw [← LeafTree.collect_eq_some.1 hrest.types |>.length_eq]
        refine ⟨s, us, none, v, ⟨?_, hs, forall₂_has hrest htypes, .none, ?_, ?_, h.has, heval⟩⟩
        · rw [hoperands]
          simp
        · rw [hlength]
          exact hselector
        · rw [hlength]
          exact hpos
      | _ => simp [verifyNode] at hverify
  · cases hsel

variable {hasDefault : Bool}

/-- The shapes of a one-bit select. -/
theorem verifySelector_one {count : Nat} (hpos : 0 < count)
    (h : verifySelector 1 count hasDefault = true) :
    count = 2 ∧ hasDefault = false ∨ count = 1 ∧ hasDefault = true := by
  have hmin : Bits.minBitCountUnsigned (count - 1) ≤ 1 := by
    simp only [verifySelector, Bool.and_eq_true, decide_eq_true_eq] at h
    exact h.1.1
  have hlt := Bits.lt_two_pow_iff_minBitCountUnsigned.mpr hmin
  obtain rfl | rfl : count = 1 ∨ count = 2 := by omega
  · cases hasDefault with
    | true => exact .inr ⟨rfl, rfl⟩
    | false => exact absurd h (by decide)
  · cases hasDefault with
    | true => exact absurd h (by decide)
    | false => exact .inl ⟨rfl, rfl⟩

section SelectAt

variable {s : Bits} {us : List Value} {ud : Option Value} {v : Value}

/-! ### The rules before -/

section

variable (h : SelectAt w id n sel s us ud v)
include h

/-- A select of one bit has cases of one bit. -/
theorem SelectAt.isBits_operands (htype : n.type = .bits 1) :
    ∀ o ∈ n.operands, (w.graph.nodes[o]?.map Node.type).all IrType.isBits = true := by
  have hcase : ∀ {os : List Nat} {vs : List Value},
      Forall₂ (fun c u => w.Has (w.rank id) c n.type u) os vs →
        ∀ o ∈ os, (w.graph.nodes[o]?.map Node.type).all IrType.isBits = true := by
    intro os vs hos o ho
    induction hos with
    | nil => cases ho
    | cons hc _ ih =>
      rcases mem_cons.mp ho with rfl | ho
      · rw [hc.type, htype]
        rfl
      · exact ih ho
  rw [h.operands]
  refine forall_mem_cons.mpr ⟨?_, fun o ho => ?_⟩
  · rw [h.selector.type]
    rfl
  · rcases mem_append.mp ho with ho | ho
    · exact hcase h.cases o ho
    · have hrel := h.default
      rw [Option.mem_toList] at ho
      rw [ho] at hrel
      cases hrel with
      | some hc => exact hcase (.cons hc .nil) o mem_cons_self

theorem ensures_replace {replacement : Nat} (hr : w.Has (w.rank id) replacement n.type v) :
    w.Ensures (Graph.replaceUsesWith id replacement) fun _ _ => True :=
  ensures_replaceUsesWith_of_has h.has hr

/-- A known selector picks a case, or the default where there are fewer cases. -/
theorem ensures_replaceByCase : w.Ensures (replaceByCase id sel s) fun _ _ => True := by
  have heval := h.eval
  unfold Interpreter.sel at heval
  obtain ⟨_, hcheck, heval⟩ := Result.bind_eq_ok.1 heval
  have hcheck := of_decide_eq_true (checkThat_eq_ok.1 hcheck)
  rw [← h.cases.length_eq] at heval hcheck
  refine ensures_lift (a := ()) (checkThat_eq_ok.2 (decide_eq_true hcheck.2)) ?_
  split
  · rename_i hlt
    rw [if_pos hlt] at heval
    have hdefault := h.default
    cases hd : sel.defaultValue with
    | none =>
      rw [hd] at hdefault
      cases hdefault
      cases heval
    | some d =>
      rw [hd] at hdefault
      cases hdefault with
      | some hu =>
        cases heval
        exact ensures_replace h hu
  · rename_i hlt
    rw [if_neg hlt, derefOption_eq_ok] at heval
    have hs : s.val < sel.cases.length := by
      have hpos := h.pos
      omega
    obtain ⟨hi, rfl⟩ := List.getElem?_eq_some_iff.1 heval
    have hcase := Forall₂.get h.cases hs hi
    refine ensures_lift (derefOption_eq_ok.2 (getElem?_eq_getElem hs)) ?_
    exact ensures_replace h hcase

/-- All cases, and the default, are the same node, so the select has its value. -/
theorem has_of_allCases {c : Nat} (hall : sel.allCases (· == c) = true) :
    w.Has (w.rank id) c n.type v := by
  rw [Select.allCases, Bool.and_eq_true, all_eq_true] at hall
  obtain ⟨hcases, hdefault⟩ := hall
  have heval := h.eval
  unfold Interpreter.sel at heval
  obtain ⟨_, -, heval⟩ := Result.bind_eq_ok.1 heval
  split at heval
  · have hrel := h.default
    cases hd : sel.defaultValue with
    | none =>
      rw [hd] at hrel
      cases hrel
      cases heval
    | some d =>
      rw [hd] at hrel hdefault
      obtain rfl : d = c := by simpa using hdefault
      cases hrel with
      | some hu =>
        cases heval
        exact hu
  · obtain ⟨hi, rfl⟩ := List.getElem?_eq_some_iff.1 (derefOption_eq_ok.1 heval)
    have hi' : s.val < sel.cases.length := by rwa [h.cases.length_eq]
    have hc : sel.cases[s.val] = c := by simpa using hcases _ (getElem_mem hi')
    have hcase := Forall₂.get h.cases hi' hi
    rw [get_eq_getElem, hc] at hcase
    exact hcase

end

theorem ensures_retCheck {α : Type} {cond : Bool} {text : String} {f : Unit → Graph.Build α}
    {Q : World env args → α → Prop} (hcond : cond = true) (h : w.Ensures (f ()) Q) :
    w.Ensures (retCheck cond text >>= f) Q := by
  rw [retCheck, if_pos hcond]
  exact h

variable {isConstant : Nat → Bool} {x : Bits}

theorem worthExploding_eq {s a b : Nat} (h : n.operands = [s, a, b]) : worthExploding isConstant n =
      pure (isConstant a || isConstant b || s == a || s == b) := by
  unfold worthExploding
  rw [h]
  rfl

theorem exists_anyCase (h : SelectAt w id n sel s us ud v) :
    ∃ c, sel.anyCase = some c ∧ sel.cases[0]? = some c := by
  cases hc : sel.cases with
  | nil =>
    have hpos := h.pos
    rw [hc] at hpos
    exact absurd hpos (lt_irrefl 0)
  | cons c cs => exact ⟨c, by simp [Select.anyCase, hc], rfl⟩

/-! ### The gates -/

/-- A value of one bit. -/
theorem eq_zero_or_one (hx : x.width = 1) : x = Bits.ofNat 1 0 ∨ x = Bits.ofNat 1 1 := by
  have hlt := x.isLt
  have hself := Bits.ofNat_self x
  rw [hx] at hlt hself
  obtain hval | hval : x.val = 0 ∨ x.val = 1 := by omega
  · exact .inl (by rw [← hself, hval])
  · exact .inr (by rw [← hself, hval])

variable {y : Bits}

theorem ensures_makeNaryOp {op : NaryOp} {b : ℚ} {i j : Nat} {z : Bits} (hi : w.Holds b i x)
    (hj : w.Holds b j y) (hxy : y.width = x.width) (hz : z.width = x.width)
    (heval : Interpreter.naryOp op [x, y] = .ok z) :
    w.Ensures (makeNaryOp op i j) fun w' new => w'.Holds b new z := by
  refine ensures_bind (ensures_getNode hi) fun w' m hle hm => ?_
  rw [hm.2]
  refine ensures_binary (hi.mono hle) (hj.mono hle) hz ?_ ?_
  · simp [verifyNode, IrType.isBits, hxy]
  · show (Interpreter.naryOp op [x, y] >>= fun r => .ok (LeafTree.leaf r)) = _
    rw [heval]
    rfl

theorem ensures_makeNot {b : ℚ} {i : Nat} (hi : w.Holds b i x) :
    w.Ensures (makeNot i) fun w' new => w'.Holds b new x.not :=
  ensures_unary hi rfl rfl

theorem naryOp_and_two (h : x.width = y.width) :
    Interpreter.naryOp .and [x, y] = .ok (x.and y) := by
  show (checkThat (x.width == y.width) >>= fun _ => _) >>= _ = _
  rw [beq_iff_eq.2 h]
  rfl

theorem naryOp_or_two (h : x.width = y.width) : Interpreter.naryOp .or [x, y] = .ok (x.or y) := by
  show (checkThat (x.width == y.width) >>= fun _ => _) >>= _ = _
  rw [beq_iff_eq.2 h]
  rfl

/-- The gates have the value of the case that the selector picks. -/
theorem gates_value {s : Bits} (hs : s.width = 1) (hx : x.width = 1) (hy : y.width = 1) :
    (s.and y).or (s.not.and x) = if s.val = 0 then x else y := by
  obtain rfl | rfl := eq_zero_or_one hs
  all_goals
    obtain rfl | rfl := eq_zero_or_one hx
    all_goals
      obtain rfl | rfl := eq_zero_or_one hy
      all_goals rfl

/-- A one-bit mux with two cases. -/
theorem ensures_explodeMux (h : SelectAt w id n sel s us ud v) (htype : n.type = .bits 1)
    (hs : s.width = 1) (hdefault : sel.defaultValue = none) {a b : Nat}
    (hcases : sel.cases = [a, b]) : w.Ensures (explodeMux id sel) fun _ _ => True := by
  have hall := h.cases
  have hrel := h.default
  have heval := h.eval
  have hhas := h.has
  rw [hcases, htype] at hall
  rw [hdefault] at hrel
  rw [htype] at hhas
  cases hrel
  cases hall with
  | cons ha hall =>
    cases hall with
    | cons hb hnil =>
      cases hnil
      obtain ⟨x, rfl, hx⟩ := has_bits ha
      obtain ⟨y, rfl, hy⟩ := has_bits hb
      rw [Canonicalization.sel_two hs] at heval
      have hv : v = .leaf (if s.val = 0 then x else y) := by
        rw [← Except.ok.inj heval]
        split <;> rfl
      have hS := h.selector.holds
      have hX : w.Holds (w.rank id) a x := ⟨by rw [hx]; exact ha.type, ha.value, ha.rank⟩
      have hY : w.Holds (w.rank id) b y := ⟨by rw [hy]; exact hb.type, hb.value, hb.rank⟩
      unfold explodeMux
      rw [hdefault, hcases]
      refine ensures_retCheck rfl ?_
      refine ensures_lift (a := a) rfl ?_
      refine ensures_lift (a := b) rfl ?_
      refine ensures_bind (ensures_makeNaryOp (z := s.and y) hS hY (hy.trans hs.symm)
        rfl (naryOp_and_two (hs.trans hy.symm))) fun w₁ lhs h₁ hlhs => ?_
      refine ensures_bind (ensures_makeNot (hS.mono h₁)) fun w₂ sNot h₂ hnot => ?_
      have hX₂ := hX.mono (h₁.trans h₂)
      refine ensures_bind (ensures_makeNaryOp (z := s.not.and x) hnot hX₂
        (hx.trans hs.symm) rfl (naryOp_and_two (hs.trans hx.symm))) fun w₃ rhs h₃ hrhs => ?_
      refine ensures_bind (ensures_makeNaryOp (z := (s.and y).or (s.not.and x))
        (hlhs.mono (h₂.trans h₃)) hrhs rfl rfl (naryOp_or_two rfl))
        fun w₄ replacement h₄ hreplacement => ?_
      have hle := ((h₁.trans h₂).trans h₃).trans h₄
      rw [gates_value hs hx hy] at hreplacement
      refine ensures_replaceUsesWith_of_has (hhas.mono hle) ?_
      have hwidth : (if s.val = 0 then x else y).width = 1 := by
        split <;> assumption
      have hnew := hreplacement.has
      rw [hwidth] at hnew
      rw [hle.rank id h.has.lt, hv]
      exact hnew

/-! ### The rule for one-bit muxes -/

/-- The rule for one-bit muxes sees a select with a default. -/
def Fails (enabled : Bool) (isConstant : Nat → Bool) (g : Graph) (n : Node) (sel : Select) : Prop :=
  enabled = true ∧ n.type = .bits 1 ∧
    g.nodes[sel.selector]?.map Node.type = some (.bits 1) ∧
    sel.defaultValue.isSome = true ∧
    ∃ s a b, n.operands = [s, a, b] ∧
      (isConstant a = true ∨ isConstant b = true ∨ s = a ∨ s = b)

/-- Where the rule fails, it is the check that there is no default. -/
theorem maybeExplodeMux_of_fails {enabled : Bool} (h : Fails enabled isConstant w.graph n sel) :
    maybeExplodeMux enabled isConstant id n sel w.graph =
      .error (.status "XLS_RET_CHECK failure: !select->default_value().has_value()") := by
  obtain ⟨rfl, htype, hselector, hdefault, s, a, b, hoperands, hworth⟩ := h
  obtain ⟨d, hd⟩ := Option.isSome_iff_exists.1 hdefault
  have hmux : isOneBitMux n sel w.graph = .ok (true, w.graph) := by
    unfold isOneBitMux
    rw [htype]
    exact run_bind_of_ok (run_bitCountOrDie hselector)
  have hor : (isConstant a || isConstant b || s == a || s == b) = true := by
    simpa [or_assoc] using hworth
  have hworth : worthExploding isConstant n w.graph = .ok (true, w.graph) := by
    rw [worthExploding_eq hoperands, hor]
    rfl
  have hexplode : explodeMux id sel w.graph =
      .error (.status "XLS_RET_CHECK failure: !select->default_value().has_value()") := by
    unfold explodeMux
    rw [hd]
    rfl
  refine (run_bind_of_ok hmux).trans ?_
  refine (run_bind_of_ok hworth).trans ?_
  exact run_bind_of_error hexplode

/-- Otherwise the exploded select has the value of the node. -/
theorem ensures_maybeExplodeMux {enabled : Bool} (h : SelectAt w id n sel s us ud v)
    (hok : ¬ Fails enabled isConstant w.graph n sel) :
    w.Ensures (maybeExplodeMux enabled isConstant id n sel) fun _ _ => True := by
  have hS := h.selector.holds
  have hdone : ∀ (w' : World env args) (r : Option Bool), w'.Ensures (pure r) fun _ _ => True :=
    fun _ r => ensures_pure fun _ _ => trivial
  by_cases hen : enabled = true
  rotate_left
  · rw [maybeExplodeMux, if_neg hen]
    exact hdone w none
  by_cases htype : n.type = .bits 1
  rotate_left
  · have hmux : isOneBitMux n sel = pure false := by
      rw [isOneBitMux, if_neg (by simpa using htype)]
    rw [maybeExplodeMux, if_pos hen, hmux]
    exact hdone w none
  have hmux : w.Ensures (isOneBitMux n sel) fun _ mux => mux = (s.width == 1) := by
    rw [isOneBitMux, if_pos (by simpa using htype)]
    refine ensures_bind (ensures_bitCountOrDie hS) fun w' k _ hk => ?_
    exact ensures_pure fun _ _ => by rw [hk]
  rw [maybeExplodeMux, if_pos hen]
  refine ensures_bind hmux fun w' mux hle hmux => ?_
  by_cases hs : s.width = 1
  rotate_left
  · rw [hmux, if_neg (by simpa using hs)]
    exact hdone w' none
  rw [hmux, if_pos (by simpa using hs)]
  -- the verifier leaves two shapes, of which the second is the one that fails
  have hverify := h.verified
  rw [hs] at hverify
  rcases verifySelector_one h.pos hverify with ⟨hcount, hdefault⟩ | ⟨hcount, hdefault⟩
  · rw [Option.isSome_eq_false_iff, Option.isNone_iff_eq_none] at hdefault
    obtain ⟨a, b, hab⟩ := length_eq_two.1 hcount
    have hoperands := h.operands
    rw [hdefault, hab] at hoperands
    rw [worthExploding_eq (s := sel.selector) (a := a) (b := b) hoperands, pure_bind]
    split
    · refine ensures_bind ((ensures_explodeMux h htype hs hdefault hab).of_le hle)
        fun w'' _ _ _ => hdone w'' _
    · exact hdone w' none
  · obtain ⟨d, hd⟩ := Option.isSome_iff_exists.1 hdefault
    obtain ⟨a, ha⟩ := length_eq_one_iff.1 hcount
    have hoperands := h.operands
    rw [hd, ha] at hoperands
    have hnot : ¬ (isConstant a || isConstant d || sel.selector == a || sel.selector == d) =
        true := by
      intro hworth
      refine hok ⟨hen, htype, hs ▸ hS.type, hdefault, sel.selector, a, d, hoperands, ?_⟩
      simpa [or_assoc] using hworth
    rw [worthExploding_eq (s := sel.selector) (a := a) (b := d) hoperands, pure_bind, if_neg hnot]
    exact hdone w' none

end SelectAt

/-! ### The two functions -/

/-- The select is left to the rule for one-bit muxes by the rules before it in `SimplifyNode`:
its selector is not known, and its cases are not all the same. -/
def SimplifyFails (e : Engine) (optLevel : Int) (g : Graph) (n : Node) (sel : Select) : Prop :=
  e.isFullyKnown sel.selector = false ∧ (∀ c, sel.allCases (· == c) = false) ∧
    Fails (narrowingEnabled optLevel) e.isFullyKnown g n sel

/-- The select is left to the rule for one-bit muxes by the rules before it in
`StrengthReduceNode`: its value is not known. -/
def StrengthReduceFails (e : Engine) (optLevel : Int) (g : Graph) (id : Nat) (n : Node)
    (sel : Select) : Prop :=
  ¬ (narrowingEnabled optLevel = true ∧ e.isFullyKnown id = true) ∧
    Fails (splitsEnabled optLevel) (isLiteral g) g n sel

variable {e : Engine}

theorem simplifyNode_run {optLevel : Int} (hn : w.graph.nodes[id]? = some n)
    (hsel : asSelect n = some sel) :
    simplifyNode e optLevel id w.graph = simplifySelect e optLevel id n sel w.graph := by
  rw [simplifyNode, World.run_getNode hn]
  simp only [hsel]

theorem strengthReduceNode_run {optLevel : Int} (hn : w.graph.nodes[id]? = some n)
    (hsel : asSelect n = some sel) :
    strengthReduceNode e optLevel id w.graph =
      strengthReduceSelect e optLevel w.graph id n sel w.graph := by
  rw [strengthReduceNode, World.run_getNode hn]
  simp only [hsel]
  rfl

section

variable (he : SoundFor e w) (optLevel : Int) (hn : w.graph.nodes[id]? = some n)
  (hsel : asSelect n = some sel)
include he optLevel hn hsel

/-- `SimplifyNode` returns on a select exactly where the rule for one-bit muxes is not
reached by a select with a default. -/
theorem simplifyNode_returns :
    w.Returns (simplifyNode e optLevel id) ↔ ¬ SimplifyFails e optLevel w.graph n sel := by
  obtain ⟨s, us, ud, v, h⟩ := exists_select hn hsel
  obtain ⟨c, hc, hfirst⟩ := exists_anyCase h
  unfold World.Returns
  rw [simplifyNode_run hn hsel]
  constructor
  · intro hreturns ⟨hselector, hcases, hfails⟩
    refine not_returns_of_error
      (f := .status "XLS_RET_CHECK failure: !select->default_value().has_value()") ?_ hreturns
    unfold simplifySelect
    rw [if_neg (by simp [hselector]), hc]
    show (if _ then _ else _ : Graph.Build (Option Bool)) w.graph = _
    rw [if_neg (by simp [hcases])]
    exact maybeExplodeMux_of_fails hfails
  · intro hok
    refine World.Returns.of_ensures (P := fun _ _ => True) ?_
    unfold simplifySelect
    by_cases hknown : e.isFullyKnown sel.selector = true
    · rw [if_pos hknown]
      refine ensures_lift (derefOption_eq_ok.2 (he _ _ hknown h.selector.value)) ?_
      refine ensures_bind (ensures_replaceByCase h) fun w' _ _ _ => ?_
      exact ensures_pure fun _ _ => trivial
    rw [if_neg hknown]
    refine ensures_lift (derefOption_eq_ok.2 hc) ?_
    by_cases hall : sel.allCases (· == c) = true
    · rw [if_pos hall]
      refine ensures_bind (ensures_replace h (has_of_allCases h hall)) fun w' _ _ _ => ?_
      exact ensures_pure fun _ _ => trivial
    rw [if_neg hall]
    refine ensures_maybeExplodeMux h fun hfails => hok ⟨by simpa using hknown, fun c' => ?_, hfails⟩
    -- the first case is among the cases, so no other node is all of them
    by_contra hall'
    rw [Bool.not_eq_false] at hall'
    have hmem := (Bool.and_eq_true _ _ ▸ hall' : _ ∧ _).1
    rw [all_eq_true] at hmem
    obtain rfl : c = c' := by simpa using hmem c (mem_of_getElem? hfirst)
    exact hall hall'

/-- `StrengthReduceNode` returns on a select exactly where the rule for one-bit muxes is not
reached by a select with a default. -/
theorem strengthReduceNode_returns :
    w.Returns (strengthReduceNode e optLevel id) ↔
      ¬ StrengthReduceFails e optLevel w.graph id n sel := by
  obtain ⟨s, us, ud, v, h⟩ := exists_select hn hsel
  unfold World.Returns
  rw [strengthReduceNode_run hn hsel]
  unfold strengthReduceSelect
  by_cases hbits : (!(n.operands.all fun o => (w.graph.nodes[o]?.map Node.type).all
      IrType.isBits) || !n.type.isBits) = true
  · rw [if_pos hbits]
    refine iff_of_true (World.Returns.of_ensures (P := fun _ _ => True)
      (ensures_pure fun _ _ => trivial)) ?_
    intro ⟨_, _, htype, _⟩
    rw [htype, all_eq_true.mpr (h.isBits_operands htype)] at hbits
    exact absurd hbits (by decide)
  rw [if_neg hbits]
  by_cases hknown : (narrowingEnabled optLevel && e.isFullyKnown id) = true
  · rw [if_pos hknown]
    rw [Bool.and_eq_true] at hknown
    refine iff_of_true (World.Returns.of_ensures (P := fun _ _ => True) ?_)
      fun hfails => hfails.1 hknown
    rw [Bool.or_eq_true, not_or] at hbits
    obtain ⟨k, hk⟩ := IrType.eq_bits_of_isBits (by simpa using hbits.2)
    have hhas := h.has
    rw [hk] at hhas
    obtain ⟨x, rfl, rfl⟩ := has_bits hhas
    refine ensures_lift (derefOption_eq_ok.2 (he _ _ hknown.2 hhas.value)) ?_
    refine ensures_bind (ensures_literal x (w.rank id)) fun w' literal hle hliteral => ?_
    rw [← hle.rank id hhas.lt] at hliteral
    refine ensures_bind (ensures_replaceUsesWith_of_has (hhas.mono hle) hliteral.has)
      fun w'' _ _ _ => ?_
    exact ensures_pure fun _ _ => trivial
  rw [if_neg hknown]
  rw [Bool.and_eq_true] at hknown
  constructor
  · intro hreturns ⟨_, hfails⟩
    exact not_returns_of_error (maybeExplodeMux_of_fails hfails) hreturns
  · intro hok
    exact World.Returns.of_ensures
      (ensures_maybeExplodeMux h fun hfails => hok ⟨hknown, hfails⟩)

end

/-- Select nodes are recognized. -/
theorem exists_asSelect (hn : w.graph.nodes[id]? = some n) (hkind : n.kind = .sel hasDefault) :
    ∃ sel, asSelect n = some sel := by
  obtain ⟨types, ops, v, h⟩ := exists_at hn
  have hverify := h.verified
  have hops := h.operands
  rw [hkind] at hverify
  cases ho : n.operands with
  | nil =>
    rw [ho] at hops
    cases hops
    simp [verifyNode] at hverify
  | cons selector rest =>
    unfold asSelect
    rw [hkind, ho]
    cases hasDefault with
    | true => exact ⟨_, rfl⟩
    | false => exact ⟨_, rfl⟩

/-- On every select that the verifier accepts, each function returns and keeps every value
exactly where its rule for one-bit muxes is not reached by a select with a default. -/
theorem oneBitMux_returns (w : World env args) {e : Engine} (he : SoundFor e w) (optLevel : Int)
    {hasDefault : Bool} (hn : w.graph.nodes[id]? = some n) (hkind : n.kind = .sel hasDefault) :
    ∃ sel, asSelect n = some sel ∧
      (w.Returns (simplifyNode e optLevel id) ↔ ¬ SimplifyFails e optLevel w.graph n sel) ∧
      (w.Returns (strengthReduceNode e optLevel id) ↔
        ¬ StrengthReduceFails e optLevel w.graph id n sel) := by
  obtain ⟨sel, hsel⟩ := exists_asSelect hn hkind
  exact ⟨sel, hsel, simplifyNode_returns he optLevel hn hsel,
    strengthReduceNode_returns he optLevel hn hsel⟩

/-! ### A select with one case -/

/-- A one-bit select with a constant case and a default. -/
def caseAndDefault : Function where
  params := [.bits 1, .bits 1]
  nodes := [⟨.param 0, [], .bits 1⟩, ⟨.literal (.leaf (Bits.ofNat 1 1)), [], .bits 1⟩,
    ⟨.param 1, [], .bits 1⟩, ⟨.sel true, [0, 1, 2], .bits 1⟩]
  returnValue := 3
  verified := by decide
  returnValue_lt := by decide

/-- The engine knows literals. -/
def literalEngine : Engine where
  isFullyKnown i := i == 1
  knownValueAsBits i := if i = 1 then some (Bits.ofNat 1 1) else none

theorem run_caseAndDefault : Interpreter.run (Interpreter.packageEnv []) caseAndDefault
    [.leaf (Bits.ofNat 1 1), .leaf (Bits.ofNat 1 0)] = .ok [.leaf (Bits.ofNat 1 1),
      .leaf (Bits.ofNat 1 1), .leaf (Bits.ofNat 1 0), .leaf (Bits.ofNat 1 0)] := rfl

theorem soundFor_literalEngine : SoundFor literalEngine (World.ofRun run_caseAndDefault) := by
  intro i x hi hx
  obtain rfl : i = 1 := by simpa [literalEngine] using hi
  obtain rfl : Bits.ofNat 1 1 = x := LeafTree.leaf.inj (Option.some.inj hx)
  rfl

/-- The functions fail on the select, which the verifier accepts. -/
theorem oneBitMux_fails_caseAndDefault :
    SoundFor literalEngine (World.ofRun run_caseAndDefault) ∧
      ¬ (World.ofRun run_caseAndDefault).Returns (simplifyNode literalEngine 2 3) ∧
      ¬ (World.ofRun run_caseAndDefault).Returns (strengthReduceNode literalEngine 3 3) :=
  ⟨soundFor_literalEngine, not_returns_of_error rfl, not_returns_of_error rfl⟩

theorem oneBitMux_returns_caseAndDefault :
    ∃ sel, asSelect ⟨.sel true, [0, 1, 2], .bits 1⟩ = some sel ∧
      ((World.ofRun run_caseAndDefault).Returns (simplifyNode literalEngine 1 3) ↔
        ¬ SimplifyFails literalEngine 1 caseAndDefault.graph ⟨.sel true, [0, 1, 2], .bits 1⟩ sel) ∧
      ((World.ofRun run_caseAndDefault).Returns (strengthReduceNode literalEngine 1 3) ↔
        ¬ StrengthReduceFails literalEngine 1 caseAndDefault.graph 3
          ⟨.sel true, [0, 1, 2], .bits 1⟩ sel) :=
  oneBitMux_returns (World.ofRun run_caseAndDefault) soundFor_literalEngine 1 rfl rfl

end OneBitMux

end Xls

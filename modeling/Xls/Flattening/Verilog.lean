import Xls.Flattening.RoundTrip

/-!
# Xls.Flattening.Verilog

The expressions for arrays place every element where `flattenValueToBits` places it. An
array is unpacked in Verilog and everything else is a vector of its flat bits, so the
statement about an element says that its expression has its value, by induction on the type
of the element.

A slice of no bits cannot be written: the helper aborts on it at offset zero, and gives an
illegal select elsewhere. So the positions agree exactly where the arrays have bits
(`flattening_roundTrips_iff`).
-/

namespace Xls.Flattening

open List

mutual

/-- A value as Verilog represents it: arrays are unpacked, the rest is flat. -/
def verilogOf : KindedValue → Result VerilogValue
  | .array v vs => do
    let first ← verilogOf v
    let rest ← verilogsOf vs
    return .unpacked (first :: rest)
  | v => do
    let b ← flattenValueToBits v
    return .packed b

def verilogsOf : List KindedValue → Result (List VerilogValue)
  | [] => .ok []
  | v :: vs => do
    let r ← verilogOf v
    let rs ← verilogsOf vs
    return r :: rs

end

/-! ### Expressions for one element -/

/-- The operand of the concatenation for an element. -/
def flattenElement (e : Expression) : IrType → Expression
  | .array n t => flattenArray e n t
  | _ => e

theorem flattenArray_eq (e : Expression) (size : Nat) (t : IrType) : flattenArray e size t =
    .concat (((range size).map fun i => flattenElement (.index e i) t).reverse) := by
  rw [← map_reverse]
  cases t with
  | _ => rfl

/-- The entry of the pattern for an element. -/
def unflattenElement (e : Expression) (start : Nat) : IrType → Result Expression
  | .array n t => unflattenArrayHelper e start n t
  | t => slice e ((start : Int) + t.flatBitCount - 1) start

theorem unflattenArrayHelper_eq (e : Expression) (offset size : Nat) (t : IrType) :
    unflattenArrayHelper e offset size t = (do
      let elements ← forEach (fun i => unflattenElement e (offset + i * t.flatBitCount) t)
        (range size)
      return .arrayAssignmentPattern elements) := by
  cases t with
  | _ => rfl

/-! ### Lists of expressions -/

variable {rs : List VerilogValue} {vs : List KindedValue} {t : IrType}

theorem evalExpressions_eq {r : VerilogValue} {es : List Expression}
    (h : Forall₂ (fun e v => evalExpression r e = some v) es rs) :
    evalExpressions r es = some rs := by
  induction h with
  | nil => rfl
  | cons he _ ih =>
    rw [evalExpressions, he, ih]
    rfl

/-- Lists are related when the elements at equal places are. -/
theorem forall₂_of_getElem? {α β : Type} {R : α → β → Prop} {as : List α} {bs : List β}
    (hlength : as.length = bs.length)
    (h : ∀ (i : Nat) a b, as[i]? = some a → bs[i]? = some b → R a b) : Forall₂ R as bs := by
  induction as generalizing bs with
  | nil =>
    cases bs with
    | nil => exact .nil
    | cons b bs => cases hlength
  | cons a as ih =>
    cases bs with
    | nil => cases hlength
    | cons b bs =>
      refine .cons (h 0 a b rfl rfl) (ih (Nat.succ.inj hlength) fun i a' b' ha hb => ?_)
      exact h (i + 1) a' b' ha hb

theorem exists_of_forall₂ {α β γ : Type} {R : α → γ → Prop} {S : γ → β → Prop} {as : List α}
    {bs : List β} (h : Forall₂ (fun a b => ∃ c, R a c ∧ S c b) as bs) :
    ∃ cs, Forall₂ R as cs ∧ Forall₂ S cs bs := by
  induction h with
  | nil => exact ⟨[], .nil, .nil⟩
  | cons hab _ ih =>
    obtain ⟨c, hac, hcb⟩ := hab
    obtain ⟨cs, has, hbs⟩ := ih
    exact ⟨c :: cs, .cons hac has, .cons hcb hbs⟩

theorem collect_packed (xs : List Bits) :
    LeafTree.collect packedBits (xs.map .packed) = some xs := by
  rw [LeafTree.collect_eq_some, forall₂_map_left_iff]
  exact forall₂_same.mpr fun _ _ => rfl

theorem verilogsOf_eq (h : Forall₂ (fun v r => verilogOf v = .ok r) vs rs) :
    verilogsOf vs = .ok rs := by
  induction h with
  | nil => rfl
  | cons hv _ ih =>
    rw [verilogsOf, hv, Result.ok_bind, ih]
    rfl

/-! ### The element lemma -/

/-- What the expressions for an element do: reading it gives its flat bits, and cutting it
out of a vector that holds its bits gives it back. -/
structure Places (t : IrType) (u : KindedValue) (x : Bits) (r : VerilogValue) : Prop where
  represents : verilogOf u = .ok r
  flatten : ∀ (input : VerilogValue) (e : Expression), evalExpression input e = some r →
    evalExpression input (flattenElement e t) = some (.packed x)
  unflatten : ∀ (input : VerilogValue) (e : Expression) (b : Bits) (start : Nat),
    evalExpression input e = some (.packed b) → start + t.flatBitCount ≤ b.width →
      b.slice start t.flatBitCount = x →
        ∃ e', unflattenElement e start t = .ok e' ∧ evalExpression input e' = some r

variable {v : KindedValue} {ts : List IrType}

/-- The array of elements that are placed. -/
theorem places_array {n : Nat} {xs : List Bits} (hxs : CodesAll (replicate n t) (v :: vs) xs)
    (hrs : rs.length = xs.length)
    (h : ∀ (i : Nat) u x r, (v :: vs)[i]? = some u → xs[i]? = some x → rs[i]? = some r →
      Places t u x r) :
    Places (.array n t) (.array v vs) (Bits.concat xs.reverse) (.unpacked rs) := by
  obtain ⟨hn, hall⟩ := hxs.forall_of_replicate
  have hxn : xs.length = n := hall.length_eq.symm.trans hn
  have hwidths : xs.map Bits.width = replicate n t.flatBitCount := by
    rw [hxs.widths, map_replicate]
  -- the value, the part and the representation at an index
  have hat : ∀ (i : Nat) r, rs[i]? = some r → i < n ∧ ∃ u x, (v :: vs)[i]? = some u ∧
      xs[i]? = some x ∧ Places t u x r := by
    intro i r hr
    have hi := (List.getElem?_eq_some_iff.1 hr).1
    have hu := getElem?_eq_getElem (l := v :: vs) (i := i) (by omega)
    have hx := getElem?_eq_getElem (l := xs) (i := i) (by omega)
    exact ⟨by omega, _, _, hu, hx, h i _ _ _ hu hx hr⟩
  refine ⟨?_, fun input e he => ?_, fun input e b start he hb hx => ?_⟩
  · have hverilogs : verilogsOf (v :: vs) = .ok rs := by
      refine verilogsOf_eq (forall₂_of_getElem? (by omega) fun i u r hu hr => ?_)
      obtain ⟨-, u', x, hu', -, hplaces⟩ := hat i r hr
      cases hu.symm.trans hu'
      exact hplaces.represents
    rw [verilogsOf] at hverilogs
    obtain ⟨first, hfirst, hbind⟩ := Result.bind_eq_ok.1 hverilogs
    obtain ⟨rest, hrest, hcons⟩ := Result.bind_eq_ok.1 hbind
    cases hcons
    rw [verilogOf, hfirst, Result.ok_bind, hrest]
    rfl
  · show evalExpression input (flattenArray e n t) = _
    have helements : Forall₂ (fun e r => evalExpression input e = some r)
        ((range n).map fun j => flattenElement (.index e j) t) (xs.map .packed) := by
      refine forall₂_of_getElem? (by simp [hxn]) fun j e' r' he' hr' => ?_
      rw [getElem?_map, Option.map_eq_some_iff] at he' hr'
      obtain ⟨j', hj', rfl⟩ := he'
      obtain ⟨hj, rfl⟩ := List.getElem?_eq_some_iff.1 hj'
      rw [length_range] at hj
      obtain ⟨x, hx, rfl⟩ := hr'
      have hr := getElem?_eq_getElem (l := rs) (i := j) (by omega)
      obtain ⟨-, u, x', -, hx', hplaces⟩ := hat j _ hr
      cases hx.symm.trans hx'
      refine hplaces.flatten input _ ?_
      rw [evalExpression, he, getElem_range]
      exact hr
    rw [flattenArray_eq, evalExpression, evalExpressions_eq (forall₂_reverse_iff.mpr helements)]
    show (LeafTree.collect packedBits (xs.map VerilogValue.packed).reverse >>= fun bs => _) = _
    rw [← map_reverse, collect_packed]
    rfl
  · rw [flatBitCount_array] at hb hx
    have helements : Forall₂ (fun j r => ∃ e', unflattenElement e (start + j * t.flatBitCount) t =
        .ok e' ∧ evalExpression input e' = some r) (range n) rs := by
      refine forall₂_of_getElem? (by simp [hxn, hrs]) fun j j' r' hj' hr' => ?_
      obtain ⟨hj, rfl⟩ := List.getElem?_eq_some_iff.1 hj'
      rw [length_range] at hj
      rw [getElem_range]
      obtain ⟨-, u, x, -, hxj, hplaces⟩ := hat j _ hr'
      have hfits : j * t.flatBitCount + t.flatBitCount ≤ n * t.flatBitCount := by
        rw [← Nat.succ_mul]
        exact Nat.mul_le_mul_right _ hj
      have hslice : b.slice (start + j * t.flatBitCount) t.flatBitCount = x := by
        rw [← Bits.slice_slice b hfits, hx, Bits.slice_concat_reverse hwidths hxj]
      exact hplaces.unflatten input e b _ he (by omega) hslice
    obtain ⟨es, hes, hrs⟩ := exists_of_forall₂ helements
    refine ⟨.arrayAssignmentPattern es, ?_, ?_⟩
    · show unflattenArrayHelper e start n t = _
      rw [unflattenArrayHelper_eq, forEach_eq_ok.mpr hes]
      rfl
    · rw [evalExpression, evalExpressions_eq hrs]
      rfl

/-- A vector is read and cut out as it is. -/
theorem places_packed {u : KindedValue} {x : Bits} (hpos : 0 < t.flatBitCount)
    (hx : x.width = t.flatBitCount) (hu : verilogOf u = .ok (.packed x))
    (hflatten : ∀ e, flattenElement e t = e)
    (hunflatten : ∀ (e : Expression) (start : Nat), unflattenElement e start t =
      slice e ((start : Int) + t.flatBitCount - 1) start) : Places t u x (.packed x) where
  represents := hu
  flatten input e he := by
    rw [hflatten]
    exact he
  unflatten input e b start he hb hslice := by
    have hhi : (0 : Int) ≤ start + t.flatBitCount - 1 := by omega
    refine ⟨.slice e (start + t.flatBitCount - 1) start, ?_, ?_⟩
    · rw [hunflatten, slice, decide_eq_true hhi, decide_eq_true (Int.natCast_nonneg start)]
      rfl
    rw [evalExpression, he]
    show (selectBits b _ _).map VerilogValue.packed = _
    rw [selectBits, if_pos (by omega), Int.toNat_natCast,
      show ((start : Int) + t.flatBitCount - 1 + 1 - start).toNat = t.flatBitCount by omega, hslice]
    rfl

/-- Every element is placed where its flat bits are. -/
theorem exists_places : ∀ {t : IrType} {u : KindedValue} {x : Bits}, Flattenable t →
    0 < t.flatBitCount → Codes t u x → ∃ r, Places t u x r
  | .bits _, .bits _, x, _, hpos, h => by
    refine ⟨_, places_packed hpos h.width ?_ (fun _ => rfl) (fun _ _ => rfl)⟩
    rw [verilogOf, h.flatten]
    · rfl
    · nofun
  | .tuple _, .tuple _, x, _, hpos, h => by
    refine ⟨_, places_packed hpos h.width ?_ (fun _ => rfl) (fun _ _ => rfl)⟩
    rw [verilogOf, h.flatten]
    · rfl
    · nofun
  | .array n t, .array v vs, x, ht, hpos, h => by
    rw [flatBitCount_array] at hpos
    obtain ⟨xs, hxs, rfl⟩ := h.arrayElements ht.2
    have hall := hxs.forall_of_replicate.2
    have hplaces : ∀ {us : List KindedValue} {ys : List Bits}, Forall₂ (Codes t) us ys →
        ∃ rs : List VerilogValue, rs.length = ys.length ∧ ∀ (i : Nat) u y r, us[i]? = some u →
          ys[i]? = some y → rs[i]? = some r → Places t u y r := by
      intro us ys hus
      induction hus with
      | nil => exact ⟨[], rfl, by simp⟩
      | cons hcodes _ ih =>
        obtain ⟨r, hr⟩ := exists_places ht.2 (Nat.pos_of_mul_pos_left hpos) hcodes
        obtain ⟨rs, hlength, hrs⟩ := ih
        refine ⟨r :: rs, congrArg (· + 1) hlength, fun i u' y' r' hu hy hr' => ?_⟩
        cases i with
        | zero =>
          cases hu
          cases hy
          cases hr'
          exact hr
        | succ i => exact hrs i _ _ _ hu hy hr'
    obtain ⟨rs, hlength, hrs⟩ := hplaces hall
    exact ⟨_, places_array hxs hlength hrs⟩
  | .token, _, _, ht, _, _ => absurd ht id

/-! ### Slices of no bits -/

/-- For an array without bits the helper gives no expression, or one that is illegal. -/
theorem unflattenArrayHelper_empty (input : VerilogValue) (e : Expression) :
    ∀ {t : IrType} {n start : Nat} {e' : Expression}, 0 < n → Flattenable t → t.flatBitCount = 0 →
      unflattenArrayHelper e start n t = .ok e' → evalExpression input e' = none := by
  intro t
  -- the first entry of the pattern is illegal already
  have hfirst : ∀ {t : IrType} {n start : Nat} {e' : Expression}, 0 < n →
      (∀ e₀, unflattenElement e start t = .ok e₀ → evalExpression input e₀ = none) →
      unflattenArrayHelper e start n t = .ok e' → evalExpression input e' = none := by
    intro t n start e' hn hillegal h
    rw [unflattenArrayHelper_eq] at h
    obtain ⟨es, hes, h⟩ := Result.bind_eq_ok.1 h
    cases h
    obtain ⟨m, rfl⟩ := Nat.exists_eq_succ_of_ne_zero hn.ne'
    rw [range_succ_eq_map] at hes
    obtain ⟨e₀, rest, he₀, -, rfl⟩ := forall₂_cons_left_iff.mp (forEach_eq_ok.mp hes)
    rw [Nat.zero_mul, Nat.add_zero] at he₀
    rw [evalExpression, evalExpressions, hillegal e₀ he₀]
    rfl
  have hslice : ∀ {start : Nat} {e₀ : Expression},
      slice e ((start : Int) + (0 : Nat) - 1) start = .ok e₀ → evalExpression input e₀ = none := by
    intro start e₀ h
    obtain ⟨_, -, h⟩ := Result.bind_eq_ok.1 h
    obtain ⟨_, -, h⟩ := Result.bind_eq_ok.1 h
    cases h
    rw [evalExpression]
    split
    · rename_i b _
      rw [selectBits, if_neg (by omega)]
      rfl
    · rfl
  induction t using IrType.rec (motive_2 := fun _ => True) with
  | bits w =>
    intro n start e' hn _ hzero
    refine hfirst hn fun e₀ he₀ => @hslice start e₀ ?_
    change slice e (start + (IrType.bits w).flatBitCount - 1) start = _ at he₀
    rwa [hzero] at he₀
  | token => exact fun _ ht => absurd ht id
  | tuple ts =>
    intro n start e' hn _ hzero
    refine hfirst hn fun e₀ he₀ => @hslice start e₀ ?_
    change slice e (start + (IrType.tuple ts).flatBitCount - 1) start = _ at he₀
    rwa [hzero] at he₀
  | array m t ih =>
    intro n start e' hn ht hzero
    rw [flatBitCount_array] at hzero
    exact hfirst hn fun e₀ he₀ =>
      ih ht.1 ht.2 ((Nat.mul_eq_zero.mp hzero).resolve_left ht.1.ne') he₀
  | nil => trivial
  | cons => trivial

/-- The arrays that the helpers are called on have bits. -/
def Sliceable : IrType → Prop
  | .array _ t => 0 < t.flatBitCount
  | .tuple ts => ∀ (i n : Nat) t, ts[i]? = some (.array n t) → 0 < t.flatBitCount
  | _ => True

/-! ### All together -/

/-- As many values as types. -/
theorem length_of_haveTypes (h : HaveTypes ts vs) : vs.length = ts.length := by
  induction ts generalizing vs with
  | nil =>
    cases vs with
    | nil => rfl
    | cons v vs => exact absurd h id
  | cons t ts ih =>
    cases vs with
    | nil => exact absurd h id
    | cons v vs => exact congrArg (· + 1) (ih h.2)

theorem flattenable_of_getElem? (h : AllFlattenable ts) {i : Nat} (ht : ts[i]? = some t) :
    Flattenable t := by
  induction ts generalizing i with
  | nil => simp at ht
  | cons s ts ih =>
    cases i with
    | zero =>
      cases ht
      exact h.1
    | succ i => exact ih h.2 ht

/-- What holds of a value of the type and its flat bits: the element at every index lies at
its offset, and the Verilog of an array, or of an array inside a tuple, reads and writes the
same positions. -/
structure Flattens (t : IrType) (v : KindedValue) (b : Bits) : Prop where
  width : b.width = t.flatBitCount
  flatten : flattenValueToBits v = .ok b
  unflatten : unflattenBitsToValue t b = .ok v
  element : ∀ (i : Nat) u, (elements v)[i]? = some u → ∃ te start, elementType t i = some te ∧
    getFlatBitIndexOfElement t i = .ok start ∧ start + te.flatBitCount ≤ b.width ∧
    flattenValueToBits u = .ok (b.slice start te.flatBitCount)
  verilogArray : ∀ n te, t = .array n te → ∃ r e, verilogOf v = .ok r ∧
    evalExpression r (flattenArray .ref n te) = some (.packed b) ∧
    unflattenArray .ref n te = .ok e ∧ evalExpression (.packed b) e = some r
  verilogElement : ∀ ts (i : Nat) n te, t = .tuple ts → ts[i]? = some (.array n te) →
    ∃ u e r, (elements v)[i]? = some u ∧ unflattenArrayShapedTupleElement .ref ts i = .ok e ∧
      verilogOf u = .ok r ∧ evalExpression (.packed b) e = some r

/-- A vector that codes a value flattens it as the Verilog expressions read and write it. -/
theorem Codes.flattens {b : Bits} (ht : Flattenable t) (hs : Sliceable t) (h : Codes t v b) :
    Flattens t v b where
  width := h.width
  flatten := h.flatten
  unflatten := h.unflatten
  element i u hu := by
    obtain ⟨te, start, hte, hstart, hle, hcodes⟩ := h.element ht hu
    exact ⟨te, start, hte, hstart, hle, hcodes.flatten⟩
  verilogArray n te heq := by
    subst heq
    have hpos : 0 < (IrType.array n te).flatBitCount := by
      rw [flatBitCount_array]
      exact Nat.mul_pos ht.1 hs
    obtain ⟨r, hr⟩ := exists_places ht hpos h
    obtain ⟨e, he, heval⟩ := hr.unflatten (.packed b) .ref b 0 rfl (by rw [Nat.zero_add, h.width])
      (by rw [← h.width, Bits.slice_self])
    exact ⟨r, e, hr.represents, hr.flatten r .ref rfl, he, heval⟩
  verilogElement ts i n te heq hts := by
    subst heq
    cases v with
    | tuple vs =>
      have hi := (List.getElem?_eq_some_iff.1 hts).1
      rw [← length_of_haveTypes h.hasType] at hi
      have hu := getElem?_eq_getElem hi
      obtain ⟨te', start, hte', hstart, hle, hcodes⟩ := h.element ht hu
      cases hts.symm.trans hte'
      have harray := flattenable_of_getElem? ht hts
      have hpos : 0 < (IrType.array n te).flatBitCount := by
        rw [flatBitCount_array]
        exact Nat.mul_pos harray.1 (hs i n te hts)
      obtain ⟨r, hr⟩ := exists_places harray hpos hcodes
      obtain ⟨e, he, heval⟩ := hr.unflatten (.packed b) .ref b start rfl hle rfl
      refine ⟨_, e, r, hu, ?_, hr.represents, heval⟩
      rw [unflattenArrayShapedTupleElement, hts]
      show (getFlatBitIndexOfElement (.tuple ts) i >>= fun start => _) = _
      rw [hstart]
      exact he
    | _ => exact absurd h.hasType id

/-- Flattening and unflattening are inverses of each other, and all positions agree. -/
def RoundTrips (t : IrType) : Prop :=
  (∀ v, HasType t v → ∃ b, Flattens t v b) ∧
    ∀ b : Bits, b.width = t.flatBitCount → ∃ v, HasType t v ∧ Flattens t v b

theorem roundTrips_of_sliceable (ht : Flattenable t) (hs : Sliceable t) : RoundTrips t := by
  refine ⟨fun v hv => ?_, fun b hb => ?_⟩
  · obtain ⟨b, hcodes⟩ := exists_codes_of_value ht hv
    exact ⟨b, hcodes.flattens ht hs⟩
  · obtain ⟨v, hcodes⟩ := exists_codes_of_bits ht hb
    exact ⟨v, hcodes.hasType, hcodes.flattens ht hs⟩

/-- The arrays of a type that round trips have bits wherever the helpers are called on them. -/
theorem sliceable_of_roundTrips (ht : Flattenable t) (h : RoundTrips t) : Sliceable t := by
  obtain ⟨v, -, hv⟩ := h.2 (Bits.zero t.flatBitCount) rfl
  cases t with
  | bits w => trivial
  | token => trivial
  | array n te =>
    refine Nat.pos_of_ne_zero fun hzero => ?_
    obtain ⟨r, e, -, -, he, heval⟩ := hv.verilogArray n te rfl
    rw [unflattenArrayHelper_empty _ _ ht.1 ht.2 hzero he] at heval
    cases heval
  | tuple ts =>
    intro i n te hts
    refine Nat.pos_of_ne_zero fun hzero => ?_
    obtain ⟨u, e, r, -, he, -, heval⟩ := hv.verilogElement ts i n te rfl hts
    rw [unflattenArrayShapedTupleElement, hts] at he
    obtain ⟨start, -, he⟩ := Result.bind_eq_ok.1 he
    have harray := flattenable_of_getElem? ht hts
    rw [unflattenArrayHelper_empty _ _ harray.1 harray.2 hzero he] at heval
    cases heval

/-- On a type of bits, tuples and arrays that are not empty, flattening and unflattening are
inverses of each other and all positions agree, exactly if the arrays that the Verilog helpers
are called on have bits. -/
theorem flattening_roundTrips_iff (ht : Flattenable t) : RoundTrips t ↔ Sliceable t :=
  ⟨sliceable_of_roundTrips ht, roundTrips_of_sliceable ht⟩

/-- A tuple of a number, an array of two pairs and nothing. -/
def nestedType : IrType := .tuple [.bits 3, .array 2 (.tuple [.bits 1, .bits 0]), .bits 0]

theorem flattening_roundTrips_iff_nestedType : RoundTrips nestedType := by
  have hflattenable : Flattenable nestedType :=
    ⟨trivial, ⟨by decide, trivial, trivial, trivial⟩, trivial, trivial⟩
  refine (flattening_roundTrips_iff hflattenable).2 fun i n t ht => ?_
  rcases i with _ | _ | _ | i <;> cases ht
  decide

/-- The slices for an array of two elements without bits start at `[-1:0]`. -/
theorem not_roundTrips_emptyElements : Flattenable (.array 2 (.bits 0)) ∧
    HasType (.array 2 (.bits 0)) (.array (.bits (Bits.zero 0)) [.bits (Bits.zero 0)]) ∧
    unflattenArray .ref 2 (.bits 0) = .error .check ∧ ¬RoundTrips (.array 2 (.bits 0)) := by
  have hflattenable : Flattenable (.array 2 (.bits 0)) := ⟨by decide, trivial⟩
  refine ⟨hflattenable, ⟨rfl, rfl, by simp [HasType]⟩, rfl, fun h => ?_⟩
  have hpos : 0 < (IrType.bits 0).flatBitCount := sliceable_of_roundTrips hflattenable h
  exact absurd hpos (by decide)

end Xls.Flattening

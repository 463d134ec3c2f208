import Xls.Bits
import Xls.Lib.Limbs
import Xls.NumberParser.Print

/-!
# Xls.ValueProto

Values and their protos: `Value::AsProto`, `Value::FromProto` and `Value::SameTypeAs`
(`xls/ir/value.cc`), over the messages of `xls/ir/xls_value.proto`.

Here a value keeps its kind, as in the source, where the model of the interpreter has one
node for tuples and arrays. `value_proto_round_trip` says which values come back from their
protos.
-/

namespace Xls

open List Nat

/-- `ValueProto`. -/
inductive ValueProto
  | bits (bitCount : Int) (data : List UInt8)
  | tuple (elements : List ValueProto)
  | token
  | array (elements : List ValueProto)
  | notSet

/-- `Value`. An array has a first element; `Value::Array` does not make empty ones. -/
inductive KindedValue
  | invalid
  | bits (b : Bits)
  | tuple (elements : List KindedValue)
  | array (first : KindedValue) (rest : List KindedValue)
  | token

namespace KindedValue

/-! ### Types -/

mutual

/-- `Value::SameTypeAs`. -/
def sameTypeAs : KindedValue → KindedValue → Result Bool
  | .bits b, .bits b' => .ok (b.width == b'.width)
  | .tuple vs, .tuple vs' => if vs.length == vs'.length then sameTypes vs vs' else .ok false
  | .array v vs, .array v' vs' => if vs.length == vs'.length then sameTypeAs v v' else .ok false
  | .token, .token => .ok true
  | .invalid, .invalid => .error .check
  | _, _ => .ok false

/-- The loop over the elements of two tuples. -/
def sameTypes : List KindedValue → List KindedValue → Result Bool
  | v :: vs, v' :: vs' => do
    let same ← sameTypeAs v v'
    if same then sameTypes vs vs' else return false
  | _, _ => .ok true

end

/-! ### Bytes -/

/-- `CeilOfRatio(bit_count, 8)`. -/
def byteCount (bitCount : Nat) : Nat := (bitCount + 7) / 8

/-- `Bits::ToBytes`: the bytes in little endian order. -/
def toBytes (b : Bits) : List UInt8 := (Limbs.limbs 8 (byteCount b.width) b.val).map UInt8.ofNat

/-- `Bits::FromBytes`: the last word is masked. -/
def fromBytes (bytes : List UInt8) (bitCount : Nat) : Result Bits := do
  checkThat (bytes.length == byteCount bitCount)
  return Bits.ofNat bitCount (ofDigits (2 ^ 8) (bytes.map UInt8.toNat))

/-- `std::string::resize` with zero bytes. -/
def resize (data : List UInt8) (n : Nat) : List UInt8 :=
  data.take n ++ List.replicate (n - data.length) 0

/-! ### Protos -/

mutual

/-- `Value::AsProto`. -/
def asProto : KindedValue → Result ValueProto
  | .bits b => .ok (.bits b.width (toBytes b))
  | .tuple vs => do
    let elements ← asProtos vs
    return .tuple elements
  | .array v vs => do
    let first ← asProto v
    let elements ← asProtos vs
    return .array (first :: elements)
  | .token => .ok .token
  | .invalid => .error (.status "Cannot serialize an invalid value")

/-- The loop over the elements. -/
def asProtos : List KindedValue → Result (List ValueProto)
  | [] => .ok []
  | v :: vs => do
    let element ← asProto v
    let elements ← asProtos vs
    return element :: elements

end

/-- The default of `max_bit_size`. -/
def defaultMaxBitSize : Int := 2 ^ 33

/-- The case of `FromProto` for bits. -/
def bitsFromProto (maxBitSize bitCount : Int) (data : List UInt8) : Result KindedValue :=
  if bitCount ≤ 0 then .error (.status s!"Bit count must be at least 1 but was {bitCount}")
  else if maxBitSize ≤ bitCount then
    .error (.status s!"Bit value is too large with {bitCount} bits")
  else do
    let byteSize := byteCount bitCount.toNat
    let data := if byteSize == data.length then data else resize data byteSize
    let b ← fromBytes data bitCount.toNat
    return .bits b

mutual

/-- `Value::ToString`, in the default format. -/
def toText : KindedValue → Result String
  | .invalid => .ok "<invalid value>"
  | .bits b => do
    let digits ← NumberParser.bitsToString b .default false
    return s!"bits[{b.width}]:{String.ofList digits}"
  | .tuple vs => do
    let elements ← toTexts vs
    return "(" ++ ", ".intercalate elements ++ ")"
  | .array v vs => do
    let first ← toText v
    let elements ← toTexts vs
    return "[" ++ ", ".intercalate (first :: elements) ++ "]"
  | .token => .ok "token"

/-- The texts of elements. -/
def toTexts : List KindedValue → Result (List String)
  | [] => .ok []
  | v :: vs => do
    let text ← toText v
    let texts ← toTexts vs
    return text :: texts

end

/-- The check of an element of an array against the first one. -/
def checkSameType (first element : KindedValue) : Result Unit := do
  let same ← first.sameTypeAs element
  if same then return ()
  else do
    let elementText ← element.toText
    let firstText ← first.toText
    .error (.status ("Multiple different value types in array. " ++
      s!"Value {elementText} does not match {firstText}"))

/-- The second element has another width. -/
example : checkSameType (.bits (Bits.ofNat 8 5)) (.bits (Bits.ofNat 4 3)) =
    .error (.status ("Multiple different value types in array. " ++
      "Value bits[4]:3 does not match bits[8]:5")) := by
  decide +kernel

mutual

/-- `Value::FromProto`. The elements of tuples and arrays are converted with the default
limit. -/
def fromProto (maxBitSize : Int) : ValueProto → Result KindedValue
  | .bits bitCount data => bitsFromProto maxBitSize bitCount data
  | .tuple elements => do
    let values ← fromProtos elements
    return .tuple values
  | .token => .ok .token
  | .array [] => .error (.status "empty arrays are not supported.")
  | .array (element :: elements) => do
    let first ← fromProto defaultMaxBitSize element
    let rest ← arrayFromProtos first elements
    return .array first rest
  | .notSet => .error (.status "Unpopulated value proto: ")

/-- The loop over the elements of a tuple. -/
def fromProtos : List ValueProto → Result (List KindedValue)
  | [] => .ok []
  | element :: elements => do
    let value ← fromProto defaultMaxBitSize element
    let values ← fromProtos elements
    return value :: values

/-- The loop over the elements of an array after the first. -/
def arrayFromProtos (first : KindedValue) : List ValueProto → Result (List KindedValue)
  | [] => .ok []
  | element :: elements => do
    let value ← fromProto defaultMaxBitSize element
    checkSameType first value
    let values ← arrayFromProtos first elements
    return value :: values

end

/-! ### Values that the constructors make -/

/-- The values that `Value(Bits)`, `Tuple`, `Array` and `Token` make. -/
inductive Built : KindedValue → Prop
  | bits (b : Bits) : Built (.bits b)
  | tuple {vs : List KindedValue} (h : ∀ v ∈ vs, Built v) : Built (.tuple vs)
  | array {v : KindedValue} {vs : List KindedValue} (hfirst : Built v)
      (h : ∀ w ∈ vs, Built w) (hsame : ∀ w ∈ vs, v.sameTypeAs w = .ok true) :
      Built (.array v vs)
  | token : Built .token

mutual

/-- The bits values in a value. -/
def allBits : KindedValue → List Bits
  | .bits b => [b]
  | .tuple vs => allBitsOf vs
  | .array v vs => allBits v ++ allBitsOf vs
  | .token => []
  | .invalid => []

/-- The bits values in a list of values. -/
def allBitsOf : List KindedValue → List Bits
  | [] => []
  | v :: vs => allBits v ++ allBitsOf vs

end

/-- Every bits value in a value has at least one bit and fewer than the limit. -/
def Sized (maxBitSize : Int) (v : KindedValue) : Prop :=
  ∀ b ∈ v.allBits, 1 ≤ b.width ∧ (b.width : Int) < maxBitSize

variable {maxBitSize : Int} {vs : List KindedValue} {v : KindedValue}

theorem sized_tuple : Sized maxBitSize (.tuple vs) ↔ ∀ v ∈ vs, Sized maxBitSize v := by
  have hmem : ∀ b, b ∈ allBitsOf vs ↔ ∃ v ∈ vs, b ∈ v.allBits := by
    intro b
    induction vs with
    | nil => simp [allBitsOf]
    | cons v vs ih => simp [allBitsOf, ih]
  simp only [Sized, allBits, hmem]
  grind

theorem sized_array :
    Sized maxBitSize (.array v vs) ↔ Sized maxBitSize v ∧ ∀ w ∈ vs, Sized maxBitSize w := by
  rw [← sized_tuple]
  simp only [Sized, allBits, mem_append]
  grind

/-! ### Bits -/

theorem le_byteCount (w : Nat) : w ≤ 8 * byteCount w := by
  unfold byteCount
  omega

@[simp] theorem length_toBytes (b : Bits) : (toBytes b).length = byteCount b.width := by
  simp [toBytes]

/-- The number that the bytes of a bits value stand for. -/
theorem value_toBytes (b : Bits) : ofDigits (2 ^ 8) ((toBytes b).map UInt8.toNat) = b.val := by
  have hbytes : (toBytes b).map UInt8.toNat = Limbs.limbs 8 (byteCount b.width) b.val := by
    rw [toBytes, map_map]
    conv_rhs => rw [← map_id (Limbs.limbs 8 (byteCount b.width) b.val)]
    refine map_congr_left fun d hd => ?_
    exact UInt8.toNat_ofNat_of_lt' (Limbs.lt_of_mem_limbs hd)
  have hlt : b.val < 2 ^ (8 * byteCount b.width) :=
    lt_of_lt_of_le b.isLt (Nat.pow_le_pow_right (by decide) (le_byteCount b.width))
  rw [hbytes, Limbs.value_limbs, mod_eq_of_lt hlt]

/-- The bytes of a bits value give it back. -/
theorem fromBytes_toBytes (b : Bits) : fromBytes (toBytes b) b.width = .ok b := by
  rw [fromBytes, length_toBytes, beq_self_eq_true, checkThat_true, Result.ok_bind, value_toBytes,
    Bits.ofNat_self, Result.pure_eq_ok]

theorem bitsFromProto_toBytes {b : Bits} (hpos : 1 ≤ b.width) (hlt : (b.width : Int) < maxBitSize) :
    bitsFromProto maxBitSize b.width (toBytes b) = .ok (.bits b) := by
  have hlen : byteCount b.width = (toBytes b).length := by simp [toBytes]
  rw [bitsFromProto, if_neg (by omega), if_neg (by omega)]
  simp only [Int.toNat_natCast, hlen, beq_self_eq_true, if_true, fromBytes_toBytes, Result.ok_bind,
    Result.pure_eq_ok]

theorem fromBytes_width {bytes : List UInt8} {w : Nat} {b : Bits} (h : fromBytes bytes w = .ok b) :
    b.width = w := by
  obtain ⟨_, -, h⟩ := Result.bind_eq_ok.mp h
  cases h
  rfl

/-- What is accepted as bits has at least one bit and fewer than the limit. -/
theorem bitsFromProto_ok {bitCount : Int} {data : List UInt8}
    (h : bitsFromProto maxBitSize bitCount data = .ok v) :
    ∃ b, v = .bits b ∧ 1 ≤ b.width ∧ (b.width : Int) < maxBitSize := by
  unfold bitsFromProto at h
  split at h
  · cases h
  · split at h
    · cases h
    · obtain ⟨b, hb, h⟩ := Result.bind_eq_ok.mp h
      cases h
      have hwidth := fromBytes_width hb
      exact ⟨b, rfl, by omega, by omega⟩

/-! ### From a value and back -/

/-- A value comes back from its proto. -/
def Returns (v : KindedValue) : Prop :=
  ∃ q, asProto v = .ok q ∧ fromProto defaultMaxBitSize q = .ok v

theorem asProtos_returns (h : ∀ v ∈ vs, Returns v) :
    ∃ qs, asProtos vs = .ok qs ∧ fromProtos qs = .ok vs := by
  induction vs with
  | nil => exact ⟨[], rfl, rfl⟩
  | cons v vs ih =>
    obtain ⟨q, hq, hv⟩ := h v mem_cons_self
    obtain ⟨qs, hqs, hvs⟩ := ih fun w hw => h w (mem_cons_of_mem _ hw)
    exact ⟨q :: qs, by simp [asProtos, hq, hqs], by simp [fromProtos, hv, hvs]⟩

theorem asProtos_returns_array {first : KindedValue}
    (hsame : ∀ v ∈ vs, first.sameTypeAs v = .ok true) (h : ∀ v ∈ vs, Returns v) :
    ∃ qs, asProtos vs = .ok qs ∧ arrayFromProtos first qs = .ok vs := by
  induction vs with
  | nil => exact ⟨[], rfl, rfl⟩
  | cons v vs ih =>
    obtain ⟨q, hq, hv⟩ := h v mem_cons_self
    obtain ⟨qs, hqs, hvs⟩ := ih (fun w hw => hsame w (mem_cons_of_mem _ hw))
      fun w hw => h w (mem_cons_of_mem _ hw)
    have hcheck : checkSameType first v = .ok () := by simp [checkSameType, hsame v mem_cons_self]
    exact ⟨q :: qs, by simp [asProtos, hq, hqs], by simp [arrayFromProtos, hv, hcheck, hvs]⟩

/-- A value that is built and small enough comes back from its proto. -/
theorem Built.returns (hv : v.Built) (hs : v.Sized defaultMaxBitSize) : Returns v := by
  induction hv with
  | bits b =>
    obtain ⟨hpos, hlt⟩ := hs b (by simp [allBits])
    exact ⟨_, rfl, bitsFromProto_toBytes hpos hlt⟩
  | tuple _ ih =>
    obtain ⟨qs, hqs, hvs⟩ := asProtos_returns fun w hw => ih w hw (sized_tuple.mp hs w hw)
    exact ⟨.tuple qs, by simp [asProto, hqs], by simp [fromProto, hvs]⟩
  | array _ _ hsame ihfirst ih =>
    obtain ⟨hsfirst, hsrest⟩ := sized_array.mp hs
    obtain ⟨q, hq, hfirst⟩ := ihfirst hsfirst
    obtain ⟨qs, hqs, hvs⟩ := asProtos_returns_array hsame fun w hw => ih w hw (hsrest w hw)
    exact ⟨.array (q :: qs), by simp [asProto, hq, hqs], by simp [fromProto, hfirst, hvs]⟩
  | token => exact ⟨.token, rfl, rfl⟩

/-! ### From a proto and back -/

mutual

/-- What `FromProto` accepts is a value that the constructors make, and the limit holds of
every bits value in it. -/
theorem fromProto_built : (p : ValueProto) → {v : KindedValue} →
    fromProto defaultMaxBitSize p = .ok v → v.Built ∧ v.Sized defaultMaxBitSize
  | .bits bitCount data, v, h => by
    obtain ⟨b, rfl, hb⟩ := bitsFromProto_ok h
    exact ⟨.bits b, by simpa [Sized, allBits] using hb⟩
  | .tuple elements, v, h => by
    obtain ⟨values, hvalues, h⟩ := Result.bind_eq_ok.mp h
    cases h
    have hall := fromProtos_built elements hvalues
    exact ⟨.tuple fun w hw => (hall w hw).1, sized_tuple.mpr fun w hw => (hall w hw).2⟩
  | .token, v, h => by
    cases h
    exact ⟨.token, by simp [Sized, allBits]⟩
  | .array [], v, h => by cases h
  | .array (element :: elements), v, h => by
    obtain ⟨first, hfirst, h⟩ := Result.bind_eq_ok.mp h
    obtain ⟨rest, hrest, h⟩ := Result.bind_eq_ok.mp h
    cases h
    have hall := arrayFromProtos_built elements hrest
    obtain ⟨hbuilt, hsized⟩ := fromProto_built element hfirst
    exact ⟨.array hbuilt (fun w hw => (hall w hw).1.1) fun w hw => (hall w hw).2,
      sized_array.mpr ⟨hsized, fun w hw => (hall w hw).1.2⟩⟩
  | .notSet, v, h => by cases h

theorem fromProtos_built : (ps : List ValueProto) → {vs : List KindedValue} →
    fromProtos ps = .ok vs → ∀ v ∈ vs, v.Built ∧ v.Sized defaultMaxBitSize
  | [], vs, h => by
    cases h
    simp
  | element :: elements, vs, h => by
    obtain ⟨value, hvalue, h⟩ := Result.bind_eq_ok.mp h
    obtain ⟨values, hvalues, h⟩ := Result.bind_eq_ok.mp h
    cases h
    exact forall_mem_cons.mpr
      ⟨fromProto_built element hvalue, fromProtos_built elements hvalues⟩

/-- The elements read from protos are built values of the type of the first. -/
theorem arrayFromProtos_built {first : KindedValue} : (ps : List ValueProto) →
    {vs : List KindedValue} → arrayFromProtos first ps = .ok vs →
    ∀ v ∈ vs, (v.Built ∧ v.Sized defaultMaxBitSize) ∧ first.sameTypeAs v = .ok true
  | [], vs, h => by
    cases h
    simp
  | element :: elements, vs, h => by
    obtain ⟨value, hvalue, h⟩ := Result.bind_eq_ok.mp h
    obtain ⟨_, hcheck, h⟩ := Result.bind_eq_ok.mp h
    obtain ⟨values, hvalues, h⟩ := Result.bind_eq_ok.mp h
    cases h
    have hsame : first.sameTypeAs value = .ok true := by
      obtain ⟨same, hsame, hif⟩ := Result.bind_eq_ok.mp hcheck
      cases same with
      | true => exact hsame
      | false =>
        obtain ⟨elementText, -, hif⟩ := Result.bind_eq_ok.mp hif
        obtain ⟨firstText, -, hif⟩ := Result.bind_eq_ok.mp hif
        cases hif
    exact forall_mem_cons.mpr
      ⟨⟨fromProto_built element hvalue, hsame⟩, arrayFromProtos_built elements hvalues⟩

end

/-- The limit matters for bits only; the elements of the other values have the default. -/
theorem fromProto_limit {p : ValueProto} (h : ∀ n data, p ≠ .bits n data) :
    fromProto maxBitSize p = fromProto defaultMaxBitSize p := by
  cases p with
  | bits n data => exact absurd rfl (h n data)
  | array elements => cases elements <;> rfl
  | _ => rfl

/-- A value that `FromProto` returns comes back from its own proto, with any limit. -/
theorem fromProto_returns {p : ValueProto} (h : fromProto maxBitSize p = .ok v) :
    ∃ q, asProto v = .ok q ∧ fromProto maxBitSize q = .ok v := by
  by_cases hbits : ∃ n data, p = .bits n data
  · obtain ⟨n, data, rfl⟩ := hbits
    obtain ⟨b, rfl, hpos, hlt⟩ := bitsFromProto_ok h
    exact ⟨_, rfl, bitsFromProto_toBytes hpos hlt⟩
  · have hp : ∀ n data, p ≠ .bits n data := fun n data hp => hbits ⟨n, data, hp⟩
    rw [fromProto_limit hp] at h
    obtain ⟨hbuilt, hsized⟩ := fromProto_built p h
    obtain ⟨q, hq, hv⟩ := hbuilt.returns hsized
    refine ⟨q, hq, ?_⟩
    rw [fromProto_limit, hv]
    -- The proto of a value that is not bits is not bits.
    rintro n data rfl
    obtain ⟨b, rfl, -⟩ := bitsFromProto_ok hv
    cases p with
    | bits n data => exact hp n data rfl
    | tuple elements =>
      obtain ⟨_, -, h⟩ := Result.bind_eq_ok.mp h
      cases h
    | token => cases h
    | array elements =>
      cases elements with
      | nil => cases h
      | cons element elements =>
        obtain ⟨_, -, h⟩ := Result.bind_eq_ok.mp h
        obtain ⟨_, -, h⟩ := Result.bind_eq_ok.mp h
        cases h
    | notSet => cases h

/-! ### Missing, surplus and stray data -/

theorem length_resize (data : List UInt8) (n : Nat) : (resize data n).length = n := by
  simp only [resize, length_append, length_take, length_replicate]
  omega

/-- The bytes that are cut off or added do not change the low bytes of the number. -/
theorem value_resize (data : List UInt8) (n : Nat) :
    ofDigits (2 ^ 8) ((resize data n).map UInt8.toNat) =
      ofDigits (2 ^ 8) (data.map UInt8.toNat) % 2 ^ (8 * n) := by
  have hzero : ∀ k, ofDigits (2 ^ 8) (List.replicate k (UInt8.toNat 0)) = 0 := by
    intro k
    induction k with
    | zero => rfl
    | succ k ih => rw [replicate_succ, ofDigits_cons, ih]; rfl
  have hlt : ∀ l : List UInt8, ofDigits (2 ^ 8) (l.map UInt8.toNat) < 2 ^ (8 * l.length) := by
    intro l
    have hbyte : ∀ d ∈ l.map UInt8.toNat, d < 2 ^ 8 := by
      intro d hd
      obtain ⟨c, -, rfl⟩ := mem_map.mp hd
      exact c.toNat_lt
    simpa using Limbs.value_lt hbyte
  have hsplit : ofDigits (2 ^ 8) (data.map UInt8.toNat) =
      ofDigits (2 ^ 8) ((data.take n).map UInt8.toNat) +
        (2 ^ 8) ^ (data.take n).length * ofDigits (2 ^ 8) ((data.drop n).map UInt8.toNat) := by
    conv_lhs => rw [← take_append_drop n data]
    rw [map_append, ofDigits_append, length_map]
  rw [resize, map_append, map_replicate, ofDigits_append, hzero, Nat.mul_zero, Nat.add_zero]
  by_cases hn : n ≤ data.length
  · have htake := hlt (data.take n)
    rw [length_take_of_le hn] at htake hsplit
    rw [hsplit, ← pow_mul, add_mul_mod_self_left, mod_eq_of_lt htake]
  · have hpow : 2 ^ (8 * data.length) ≤ 2 ^ (8 * n) := Nat.pow_le_pow_right (by decide) (by omega)
    rw [take_of_length_le (by omega), mod_eq_of_lt (lt_of_lt_of_le (hlt data) hpow)]

/-- Of the data, the low bits of the number decide, however many bytes there are. -/
theorem bitsFromProto_value {bitCount : Int} (hpos : 0 < bitCount) (hlt : bitCount < maxBitSize)
    (data : List UInt8) :
    bitsFromProto maxBitSize bitCount data =
      .ok (.bits (Bits.ofNat bitCount.toNat (ofDigits (2 ^ 8) (data.map UInt8.toNat)))) := by
  have hdvd : 2 ^ bitCount.toNat ∣ 2 ^ (8 * byteCount bitCount.toNat) :=
    Nat.pow_dvd_pow 2 (le_byteCount _)
  rw [bitsFromProto, if_neg (by omega), if_neg (by omega)]
  by_cases hlen : byteCount bitCount.toNat = data.length
  · simp [hlen, fromBytes]
  · have hresized : Bits.ofNat bitCount.toNat (ofDigits (2 ^ 8)
        ((resize data (byteCount bitCount.toNat)).map UInt8.toNat)) =
        Bits.ofNat bitCount.toNat (ofDigits (2 ^ 8) (data.map UInt8.toNat)) := by
      refine Bits.ext rfl ?_
      simp only [Bits.ofNat_val, value_resize]
      exact mod_mod_of_dvd _ hdvd
    rw [← hresized]
    simp [hlen, fromBytes, length_resize]

/-! ### Round trips -/

/-- Values with bits of at least one bit and fewer than the limit come back from their protos;
what `FromProto` returns for a proto comes back as well, its bits depend on the low bits of
the data only, and the default limit holds of all bits in it. -/
theorem value_proto_round_trip :
    (∀ v : KindedValue, v.Built → v.Sized defaultMaxBitSize →
      ∃ q, asProto v = .ok q ∧ fromProto defaultMaxBitSize q = .ok v) ∧
    (∀ maxBitSize p v, fromProto maxBitSize p = .ok v →
      ∃ q, asProto v = .ok q ∧ fromProto maxBitSize q = .ok v) ∧
    (∀ maxBitSize bitCount data, 0 < bitCount → bitCount < maxBitSize →
      fromProto maxBitSize (.bits bitCount data) =
        .ok (.bits (Bits.ofNat bitCount.toNat (ofDigits (2 ^ 8) (data.map UInt8.toNat))))) ∧
    ∀ p v, fromProto defaultMaxBitSize p = .ok v →
      ∀ b ∈ v.allBits, (b.width : Int) < defaultMaxBitSize := by
  refine ⟨?_, ?_, ?_, ?_⟩
  · exact fun v hv hs => hv.returns hs
  · exact fun maxBitSize p v h => fromProto_returns h
  · exact fun maxBitSize bitCount data hpos hlt => bitsFromProto_value hpos hlt data
  · exact fun p v h b hb => ((fromProto_built p h).2 b hb).2

/-- A bits value of no width has a proto that is refused. -/
theorem not_value_proto_round_trip_zero_width :
    ¬∀ v : KindedValue, v.Built → (∀ b ∈ v.allBits, (b.width : Int) < defaultMaxBitSize) →
      ∃ q, asProto v = .ok q ∧ fromProto defaultMaxBitSize q = .ok v := by
  intro h
  obtain ⟨q, hq, hv⟩ := h (.bits (Bits.zero 0)) (.bits _) (by simp [allBits, defaultMaxBitSize])
  cases hq
  cases hv

end KindedValue

end Xls

import Xls.NumberParser.Exact

/-!
# Xls.NumberParser.Print

Printed bits read back (`printed_bits_read_back`): `BitsToRawDigits` and `BitsToString` of
`xls/ir/bits_ops.cc`, followed by the parser. The text of a `BigInt` is that of the integer
(`BN_bn2dec`).
-/

namespace Xls.NumberParser

open BitsOps Bits List Nat Option

/-! ### The printer -/

/-- The loop over the digits, from the most significant one. `n` digits are left, and the
next one has the number `n - 1`. -/
def rawDigitsLoop (b : Bits) (digitWidth : Nat) (includeSeparators : Bool) :
    Nat → Bool → Name → Name
  | 0, _, result => result
  | digitNo + 1, elidingLeadingZeros, result =>
    let result :=
      if includeSeparators && (digitNo + 1) % 4 == 0 && !result.isEmpty then result ++ ['_']
      else result
    let start := digitNo * digitWidth
    let width := min digitWidth (b.width - start)
    let digitValue := (b.slice start width).val
    if digitValue == 0 && elidingLeadingZeros && digitNo != 0 then
      rawDigitsLoop b digitWidth includeSeparators digitNo elidingLeadingZeros result
    else
      rawDigitsLoop b digitWidth includeSeparators digitNo false
        (result ++ toDigits 16 digitValue)

/-- `BitsToRawDigits`. -/
def bitsToRawDigits (b : Bits) (preference : FormatPreference) (emitLeadingZeros : Bool) :
    Result Name := do
  checkThat (preference != .default)
  match preference with
  | .signedDecimal => do
    checkThat (!emitLeadingZeros)
    return NameUniquer.decimal (makeSigned b)
  | .unsignedDecimal => do
    checkThat (!emitLeadingZeros)
    return NameUniquer.decimal (makeUnsigned b)
  | _ =>
    if b.width = 0 then return ['0']
    else do
      let binaryFormat := preference == .binary || preference == .plainBinary
      let hexFormat := preference == .hex || preference == .plainHex
      let plainFormat := preference == .plainBinary || preference == .plainHex
      checkThat (binaryFormat || hexFormat)
      let digitWidth := if binaryFormat then 1 else 4
      let digitCount := (b.width + digitWidth - 1) / digitWidth
      return rawDigitsLoop b digitWidth (!plainFormat) digitCount (!emitLeadingZeros) []

/-- The format that the default stands for. -/
def resolveDefault (b : Bits) (preference : FormatPreference) : FormatPreference :=
  if preference = .default then if b.width ≤ 64 then .unsignedDecimal else .hex else preference

/-- The prefix of a format. -/
def formatStart : FormatPreference → Name
  | .binary => ['0', 'b']
  | .hex => ['0', 'x']
  | _ => []

/-- `BitsToString`. -/
def bitsToString (b : Bits) (preference : FormatPreference) (includeBitCount : Bool) :
    Result Name := do
  let preference := resolveDefault b preference
  let digits ← bitsToRawDigits b preference false
  let count := if includeBitCount then s!" [{b.width} bits]".toList else []
  return formatStart preference ++ digits ++ count

/-! ### Literals grow at their end -/

theorem stripped_append (s t : Name) : stripped (s ++ t) = stripped s ++ stripped t :=
  filter_append s t

variable {base n baseBits : Nat} {s : Name}

/-- An underscore after the first digit changes nothing. -/
theorem digitsLiteral?_separator (h : digitsLiteral? base s = some n) :
    digitsLiteral? base (s ++ ['_']) = some n := by
  cases s with
  | nil => cases h
  | cons c rest =>
    rw [cons_append, digitsLiteral?]
    rw [digitsLiteral?] at h
    split at h
    · rename_i hcond
      rw [Bool.and_eq_true] at hcond
      rw [if_pos]
      · rw [← h, ← cons_append, stripped_append]
        simp [stripped]
      · simp only [all_append, hcond, Bool.and_eq_true]
        simp
    · cases h

/-- What has been printed: nothing for zero, or a literal. -/
def Printed (base : Nat) (s : Name) (n : Nat) : Prop :=
  s = [] ∧ n = 0 ∨ digitsLiteral? base s = some n

variable {d : Nat} {f : FormatPreference}

/-- A digit is put behind. -/
theorem Printed.digit {c : Char} (h : Printed base s n) (hd : digit? base c = some d)
    (hc : c ≠ '_') : digitsLiteral? base (s ++ [c]) = some (n * base + d) := by
  obtain ⟨rfl, rfl⟩ | h := h
  · simp [digitsLiteral?, hd, stripped, hc, valueFrom]
  · cases s with
    | nil => cases h
    | cons e rest =>
      rw [cons_append, digitsLiteral?]
      rw [digitsLiteral?] at h
      split at h
      · rename_i hcond
        rw [Bool.and_eq_true] at hcond
        rw [if_pos]
        · have hlast : stripped [c] = [c] := by simp [stripped, hc]
          rw [← cons_append, stripped_append, hlast, valueFrom_append, some.inj h]
          simp [valueFrom, hd]
        · simp only [all_append, hcond, Bool.and_eq_true]
          simp [hd]
      · cases h

/-! ### The loop over the digits -/

theorem digit?_digitChar (hradix : IsRadix base baseBits) (hd : d < base) :
    digit? base (digitChar d) = some d ∧ digitChar d ≠ '_' := by
  obtain ⟨rfl, rfl⟩ | ⟨rfl, rfl⟩ := hradix
  · revert d
    decide
  · revert d
    decide

/-- The digit that is sliced out; the last one may have fewer bits than a digit. -/
theorem slice_digit (b : Bits) (start digitWidth : Nat) :
    (b.slice start (min digitWidth (b.width - start))).val =
      b.val / 2 ^ start % 2 ^ digitWidth := by
  rw [slice_val]
  rcases Nat.le_total digitWidth (b.width - start) with hle | hle
  · rw [Nat.min_eq_left hle]
  · have hlt : b.val / 2 ^ start < 2 ^ (b.width - start) := by
      rw [Nat.div_lt_iff_lt_mul (Nat.two_pow_pos _), ← pow_add]
      exact lt_of_lt_of_le b.isLt (Nat.pow_le_pow_right (by decide) (by omega))
    rw [Nat.min_eq_right hle, mod_eq_of_lt hlt,
      mod_eq_of_lt (lt_of_lt_of_le hlt (Nat.pow_le_pow_right (by decide) hle))]

/-- The digits printed so far are a literal of the upper part of the number. -/
theorem rawDigitsLoop_printed (hradix : IsRadix base baseBits) (b : Bits) (includeSeparators : Bool)
    (n : Nat) {eliding : Bool} {result : Name} (heliding : eliding = true → result = [])
    (h : Printed base result (b.val / 2 ^ (n * baseBits))) (hn : n = 0 → result ≠ []) :
    digitsLiteral? base (rawDigitsLoop b baseBits includeSeparators n eliding result) =
      some b.val := by
  -- What is printed when `n` digits are left is the number without its low `n` digits.
  induction n generalizing eliding result with
  | zero =>
    rw [Nat.zero_mul, pow_zero, Nat.div_one] at h
    obtain ⟨hnil, -⟩ | h := h
    · exact absurd hnil (hn rfl)
    · exact h
  | succ n ih =>
    have hnext : b.val / 2 ^ ((n + 1) * baseBits) * base +
        b.val / 2 ^ (n * baseBits) % 2 ^ baseBits = b.val / 2 ^ (n * baseBits) := by
      rw [succ_mul, pow_add, ← Nat.div_div_eq_div_mul, hradix.pow, Nat.mul_comm]
      exact div_add_mod _ _
    have hsep : ∀ t, Printed base t (b.val / 2 ^ ((n + 1) * baseBits)) →
        ∀ p : Bool, Printed base (if p && !t.isEmpty then t ++ ['_'] else t)
          (b.val / 2 ^ ((n + 1) * baseBits)) := by
      intro t ht p
      split
      · rename_i hcond
        obtain ⟨rfl, -⟩ | ht := ht
        · simp at hcond
        · exact .inr (digitsLiteral?_separator ht)
      · exact ht
    rw [rawDigitsLoop]
    simp only [slice_digit]
    split
    · rename_i hcond
      simp only [Bool.and_eq_true, beq_iff_eq, bne_iff_ne] at hcond
      obtain ⟨⟨hzero, hel⟩, hne⟩ := hcond
      obtain rfl := heliding hel
      simp only [isEmpty_nil, Bool.not_true, Bool.and_false, Bool.false_eq_true, if_false]
      refine ih (fun _ => rfl) (.inl ⟨rfl, ?_⟩) (fun h0 => absurd h0 hne)
      obtain ⟨-, hv⟩ | hlit := h
      · rw [hv, hzero] at hnext
        omega
      · cases hlit
    · have hlt : b.val / 2 ^ (n * baseBits) % 2 ^ baseBits < base := by
        rw [hradix.pow]
        exact mod_lt _ (Nat.two_pow_pos _)
      have hlt16 : b.val / 2 ^ (n * baseBits) % 2 ^ baseBits < 16 := by
        obtain ⟨rfl, rfl⟩ | ⟨rfl, rfl⟩ := hradix <;> omega
      obtain ⟨hdigit, hchar⟩ := digit?_digitChar hradix hlt
      rw [toDigits_of_lt_base hlt16]
      refine ih (by simp) (.inr ?_) (by simp)
      have hprinted := (hsep result h (includeSeparators && (n + 1) % 4 == 0)).digit hdigit hchar
      rw [hnext] at hprinted
      exact hprinted

/-- The raw digits of bits that have any. -/
theorem rawDigits_literal (hradix : IsRadix base baseBits) {b : Bits} (hw : b.width ≠ 0)
    (includeSeparators eliding : Bool) :
    digitsLiteral? base (rawDigitsLoop b baseBits includeSeparators
      ((b.width + baseBits - 1) / baseBits) eliding []) = some b.val := by
  obtain ⟨hpos, -⟩ := hradix.step
  have hcover : b.width ≤ (b.width + baseBits - 1) / baseBits * baseBits := by
    have := div_add_mod (b.width + baseBits - 1) baseBits
    have := mod_lt (b.width + baseBits - 1) hpos
    rw [Nat.mul_comm]
    omega
  have hzero : b.val / 2 ^ ((b.width + baseBits - 1) / baseBits * baseBits) = 0 :=
    div_eq_of_lt (lt_of_lt_of_le b.isLt (Nat.pow_le_pow_right (by decide) hcover))
  refine rawDigitsLoop_printed hradix b includeSeparators _ (fun _ => rfl) (.inl ⟨rfl, hzero⟩) ?_
  intro h0
  rw [h0, Nat.zero_mul] at hcover
  omega

/-! ### Decimal text -/

theorem digit?_ten_digitChar (hd : d < 10) :
    digit? 10 (digitChar d) = some d ∧ digitChar d ≠ '_' := by
  revert d
  decide

/-- Decimal text is a literal, and only that of zero begins with a zero. -/
theorem toDigits_literal (n : Nat) :
    digitsLiteral? 10 (toDigits 10 n) = some n ∧
      ∀ rest, toDigits 10 n = '0' :: rest → rest = [] := by
  induction n using Nat.strongRecOn with
  | ind n ih =>
    by_cases hn : n < 10
    · obtain ⟨hdigit, hchar⟩ := digit?_ten_digitChar hn
      rw [toDigits_of_lt_base hn]
      refine ⟨by simpa using Printed.digit (.inl ⟨rfl, rfl⟩) hdigit hchar, ?_⟩
      rintro rest hrest
      exact (List.cons.inj hrest).2.symm
    · have hk : n % 10 < 10 := mod_lt _ (by decide)
      obtain ⟨hlit, hzero⟩ := ih (n / 10) (by omega)
      obtain ⟨hdigit, hchar⟩ := digit?_ten_digitChar hk
      have hsplit : toDigits 10 n = toDigits 10 (n / 10) ++ [digitChar (n % 10)] := by
        rw [← toDigits_of_lt_base hk,
          toDigits_append_toDigits (by decide) (by omega) hk, div_add_mod]
      rw [hsplit]
      have hnext := Printed.digit (.inr hlit) hdigit hchar
      refine ⟨by rw [hnext, div_add_mod'], ?_⟩
      -- A longer text begins as the text of the quotient, which is not zero.
      intro rest hrest
      cases hq : toDigits 10 (n / 10) with
      | nil => exact absurd hq toDigits_ne_nil
      | cons c t =>
        rw [hq, cons_append] at hrest
        obtain ⟨rfl, -⟩ := List.cons.inj hrest
        obtain rfl := hzero t hq
        rw [hq] at hlit
        have : n / 10 = 0 := by
          have hval : digitsLiteral? 10 ['0'] = some 0 := by decide
          exact (some.inj (hval.symm.trans hlit)).symm
        omega

/-- Printed decimal digits are read back. -/
theorem magnitude?_toDigits (n : Nat) : magnitude? (toDigits 10 n) = some n := by
  obtain ⟨hlit, hzero⟩ := toDigits_literal n
  rw [magnitude?.eq_4]
  · exact hlit
  · intro rest h
    cases hzero _ h
  · intro rest h
    cases hzero _ h
  · intro c rest h
    cases hzero _ h

/-- A printed decimal number is a literal with its sign. -/
theorem literal?_decimal (i : Int) :
    literal? (NameUniquer.decimal i) = some (decide (i < 0), i.natAbs) := by
  unfold NameUniquer.decimal
  split
  · rename_i hneg
    rw [literal?, magnitude?_toDigits]
    simp [hneg]
  · rename_i hneg
    rw [literal?.eq_2, magnitude?_toDigits]
    · simp only [hneg, decide_false, map_some, some.injEq, Prod.mk.injEq, true_and]
      omega
    · intro rest h
      have hmem : '-' ∈ toDigits 10 i.toNat := by simp [h]
      cases isDigit_of_mem_toDigits (by decide) (by decide) hmem

/-! ### Reading back -/

variable {simpleAtoi : Name → Option Nat}

/-- A literal that is not negative is read as its value. -/
theorem parseNumber_nonneg (atoi : SingleDigitAtoi simpleAtoi) (h : literal? s = some (false, n)) :
    ∃ r, parseNumber simpleAtoi s = .ok r ∧ r.val = n := by
  obtain ⟨r, hr, hnarrow⟩ := parseNumber_eq (getSignAndMagnitude_literal atoi h)
  refine ⟨r, hr, ?_⟩
  simp only [IsNarrowest, signed, Bool.false_eq_true, if_false] at hnarrow
  rw [if_neg (by omega)] at hnarrow
  exact Int.ofNat_inj.mp hnarrow.1

/-- The value that a text with a sign has: in two's complement after a minus. -/
def readValue (i : Int) (r : Bits) : Int := if i < 0 then r.toInt else r.val

/-- Parsing a printed number gives a vector of that value. -/
theorem parseNumber_decimal (atoi : SingleDigitAtoi simpleAtoi) (i : Int) :
    ∃ r, parseNumber simpleAtoi (NameUniquer.decimal i) = .ok r ∧ readValue i r = i := by
  obtain ⟨r, hr, hnarrow⟩ := parseNumber_eq (getSignAndMagnitude_literal atoi (literal?_decimal i))
  have hsigned : signed (decide (i < 0)) i.natAbs = i := by
    unfold signed
    split
    · rename_i hneg
      have := of_decide_eq_true hneg
      omega
    · rename_i hneg
      have : ¬i < 0 := fun h => hneg (decide_eq_true h)
      omega
  rw [hsigned] at hnarrow
  refine ⟨r, hr, ?_⟩
  unfold IsNarrowest at hnarrow
  unfold readValue
  split at hnarrow
  · rename_i hneg
    rw [if_pos hneg]
    exact hnarrow.1
  · rename_i hneg
    rw [if_neg hneg]
    exact hnarrow.1

theorem literal?_binary (h : digitsLiteral? 2 s = some n) :
    literal? ('0' :: 'b' :: s) = some (false, n) := by
  rw [literal?.eq_2 _ (by rintro rest hrest; cases hrest), magnitude?, h]
  rfl

theorem literal?_hex (h : digitsLiteral? 16 s = some n) :
    literal? ('0' :: 'x' :: s) = some (false, n) := by
  rw [literal?.eq_2 _ (by rintro rest hrest; cases hrest), magnitude?, h]
  rfl

/-- The base of a format and the bits of its digits. -/
def formatRadix : FormatPreference → Option (Nat × Nat)
  | .binary => some (2, 1)
  | .plainBinary => some (2, 1)
  | .hex => some (16, 4)
  | .plainHex => some (16, 4)
  | _ => none

/-- The digits of a binary or hexadecimal format are a literal without its prefix. -/
theorem bitsToRawDigits_literal (b : Bits) (hf : formatRadix f = some (base, baseBits)) :
    IsRadix base baseBits ∧
      ∃ text, bitsToRawDigits b f false = .ok text ∧ digitsLiteral? base text = some b.val := by
  have hradix : IsRadix base baseBits := by
    cases f <;> cases hf <;> simp [IsRadix]
  refine ⟨hradix, ?_⟩
  by_cases hw : b.width = 0
  · have hval : b.val = 0 := by
      have := b.isLt
      rw [hw] at this
      omega
    have hzero : digitsLiteral? base ['0'] = some b.val := by
      rw [hval]
      obtain ⟨rfl, rfl⟩ | ⟨rfl, rfl⟩ := hradix <;> decide
    refine ⟨['0'], ?_, hzero⟩
    cases f <;> cases hf <;> simp [bitsToRawDigits, hw] <;> rfl
  · cases f <;> cases hf
    · exact ⟨_, by simp [bitsToRawDigits, hw]; rfl, rawDigits_literal hradix hw true true⟩
    · exact ⟨_, by simp [bitsToRawDigits, hw]; rfl, rawDigits_literal hradix hw true true⟩
    · exact ⟨_, by simp [bitsToRawDigits, hw]; rfl, rawDigits_literal hradix hw false true⟩
    · exact ⟨_, by simp [bitsToRawDigits, hw]; rfl, rawDigits_literal hradix hw false true⟩

/-- What is fitted to the width of the bits that were printed is those bits. -/
theorem fitTo_width (b c : Bits) (h : c.val = b.val) : fitTo b.width c = b := by
  have hlt := b.isLt
  have hnot : ¬(b.width : Int) = minimumBitCount := by
    unfold minimumBitCount
    omega
  rw [fitTo, if_neg hnot]
  split
  · refine Bits.ext ?_ ?_
    · simp only [append_width, zero_width]
      omega
    · simp [append_val, h]
  · refine Bits.ext rfl ?_
    rw [slice_val, pow_zero, Nat.div_one, h, Int.toNat_natCast]
    exact mod_eq_of_lt hlt

/-- Digits of a plain format are read back in the width of the bits. -/
theorem parse_plain (b : Bits) {text : Name} {f' : FormatPreference}
    (hf : formatRadix f' = some (base, baseBits)) (hpre : f' = .binary ∨ f' = .hex)
    (h : digitsLiteral? base text = some b.val) :
    parseUnsignedNumberWithoutPrefix simpleAtoi text f' b.width = .ok b := by
  obtain ⟨hradix, -⟩ := bitsToRawDigits_literal b hf
  have hsep : digit? base '_' = none := by
    obtain ⟨rfl, rfl⟩ | ⟨rfl, rfl⟩ := hradix <;> decide
  obtain ⟨hne, hall, hval⟩ := digitsLiteral?_some hsep h
  unfold parseUnsignedNumberWithoutPrefix
  obtain rfl | rfl := hpre
  · cases hf
    obtain ⟨c, hc, hcval⟩ := parseBased_digits hradix "binary" text hall b.width
    rw [parseUnsigned_binary _ _ _ hne, hc, fitTo_width b c (by rw [hcval, hval])]
  · cases hf
    obtain ⟨c, hc, hcval⟩ := parseBased_digits hradix "hexadecimal" text hall b.width
    rw [parseUnsigned_hex _ _ _ hne, hc, fitTo_width b c (by rw [hcval, hval])]

/-- A format whose text has a prefix. -/
theorem bitsToString_based (atoi : SingleDigitAtoi simpleAtoi) (b : Bits)
    (hf : f = .binary ∨ f = .hex) :
    ∃ text r, bitsToString b f false = .ok text ∧ parseNumber simpleAtoi text = .ok r ∧
      r.val = b.val := by
  obtain rfl | rfl := hf
  · obtain ⟨-, digits, hdigits, hlit⟩ := bitsToRawDigits_literal b (f := .binary) rfl
    obtain ⟨r, hr, hval⟩ := parseNumber_nonneg atoi (literal?_binary hlit)
    exact ⟨_, r, by simp [bitsToString, resolveDefault, hdigits, formatStart], hr, hval⟩
  · obtain ⟨-, digits, hdigits, hlit⟩ := bitsToRawDigits_literal b (f := .hex) rfl
    obtain ⟨r, hr, hval⟩ := parseNumber_nonneg atoi (literal?_hex hlit)
    exact ⟨_, r, by simp [bitsToString, resolveDefault, hdigits, formatStart], hr, hval⟩

theorem bitsToString_unsigned (atoi : SingleDigitAtoi simpleAtoi) (b : Bits) :
    ∃ text r, bitsToString b .unsignedDecimal false = .ok text ∧
      parseNumber simpleAtoi text = .ok r ∧ r.val = b.val := by
  obtain ⟨r, hr, hval⟩ := parseNumber_decimal atoi (makeUnsigned b)
  refine ⟨_, r, rfl, by simpa [formatStart, resolveDefault] using hr, ?_⟩
  rw [makeUnsigned_eq, readValue, if_neg (by omega)] at hval
  exact Int.ofNat_inj.mp hval

/-- Printed bits read back, for every width: the formats that `ParseNumber` reads give the
value, and the plain digits give the bits. -/
theorem printed_bits_read_back (atoi : SingleDigitAtoi simpleAtoi) (b : Bits) :
    (∀ f ∈ [FormatPreference.unsignedDecimal, .binary, .hex, .default],
      ∃ text r, bitsToString b f false = .ok text ∧ parseNumber simpleAtoi text = .ok r ∧
        r.val = b.val) ∧ (∃ text r, bitsToString b .signedDecimal false = .ok text ∧
      parseNumber simpleAtoi text = .ok r ∧ readValue b.toInt r = b.toInt) ∧
    (∃ text, bitsToRawDigits b .plainBinary false = .ok text ∧
      parseUnsignedNumberWithoutPrefix simpleAtoi text .binary b.width = .ok b) ∧
    ∃ text, bitsToRawDigits b .plainHex false = .ok text ∧
      parseUnsignedNumberWithoutPrefix simpleAtoi text .hex b.width = .ok b := by
  refine ⟨?_, ?_, ?_, ?_⟩
  · intro f hf
    simp only [mem_cons, not_mem_nil, or_false] at hf
    obtain rfl | rfl | rfl | rfl := hf
    · exact bitsToString_unsigned atoi b
    · exact bitsToString_based atoi b (.inl rfl)
    · exact bitsToString_based atoi b (.inr rfl)
    · -- The default is one of the formats above.
      by_cases hw : b.width ≤ 64
      · obtain ⟨text, r, htext, hr⟩ := bitsToString_unsigned atoi b
        refine ⟨text, r, ?_, hr⟩
        rw [← htext]
        simp [bitsToString, resolveDefault, hw]
      · obtain ⟨text, r, htext, hr⟩ := bitsToString_based atoi b (.inr rfl)
        refine ⟨text, r, ?_, hr⟩
        rw [← htext]
        simp [bitsToString, resolveDefault, hw]
  · obtain ⟨r, hr, hval⟩ := parseNumber_decimal atoi (makeSigned b)
    refine ⟨_, r, rfl, by simpa [formatStart, resolveDefault] using hr, ?_⟩
    rwa [makeSigned_eq] at hval
  · obtain ⟨-, text, htext, hlit⟩ := bitsToRawDigits_literal b (f := .plainBinary) rfl
    exact ⟨text, htext, parse_plain b rfl (.inl rfl) hlit⟩
  · obtain ⟨-, text, htext, hlit⟩ := bitsToRawDigits_literal b (f := .plainHex) rfl
    exact ⟨text, htext, parse_plain b rfl (.inr rfl) hlit⟩

/-- Bits of a width that is not a multiple of a digit. -/
theorem printed_bits_read_back_five_bits :
    ∃ text r, bitsToString (Bits.ofNat 5 19) .hex false = .ok text ∧
      parseNumber documentedDigit text = .ok r ∧ r.val = 19 :=
  (printed_bits_read_back ⟨fun _ => rfl⟩ (Bits.ofNat 5 19)).1 .hex (by simp)

end Xls.NumberParser

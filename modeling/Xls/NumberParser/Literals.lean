import Xls.NumberParser.Digits

/-!
# Xls.NumberParser.Literals

The grammar of number literals, and exactly when the parser follows it
(`getSignAndMagnitude_read`).
-/

namespace Xls.NumberParser

open BitsOps Bits List BoolList Result Option

/-! ### Least widths -/

/-- As many bits as the number has without leading zeros. -/
theorem length_dropWhile_not (l : List Bool) :
    (l.reverse.dropWhile (! ·)).length = minBitCountUnsigned (toNat l) := by
  induction l using List.reverseRecOn with
  | nil => rfl
  | append_singleton l b ih =>
    rw [reverse_append, reverse_singleton, singleton_append]
    cases b with
    | false => simpa [toNat_append] using ih
    | true =>
      have hlt := toNat_lt l
      have hval : toNat (l ++ [true]) = toNat l + 2 ^ l.length := by simp [toNat_append]
      have hlength : l.length + 1 = minBitCountUnsigned (toNat (l ++ [true])) := by
        refine le_antisymm ?_ ?_
        · by_contra hle
          have := lt_two_pow_iff_minBitCountUnsigned.mpr (Nat.lt_succ_iff.mp (not_le.mp hle))
          omega
        · refine lt_two_pow_iff_minBitCountUnsigned.mp ?_
          rw [hval, pow_succ]
          omega
      simpa using hlength

theorem significantBits_eq (b : Bits) : significantBits b = minBitCountUnsigned b.val := by
  rw [significantBits, length_dropWhile_not, toNat_toBools]

theorem countLeadingZeros_eq (b : Bits) :
    b.width - countLeadingZeros b = minBitCountUnsigned b.val := by
  have hsplit := congrArg List.length
    (takeWhile_append_dropWhile (p := (! ·)) (l := b.toBools.reverse))
  rw [length_append, length_reverse, toBools_length] at hsplit
  have hdrop := significantBits_eq b
  unfold significantBits at hdrop
  unfold countLeadingZeros
  omega

/-- The bits of a number in the least width. -/
def narrow (n : Nat) : Bits := Bits.ofNat (minBitCountUnsigned n) n

theorem narrow_val (n : Nat) : (narrow n).val = n :=
  ofNat_val_of_lt (lt_two_pow_iff_minBitCountUnsigned.mpr (le_refl _))

theorem narrow_width (n : Nat) : (narrow n).width = minBitCountUnsigned n := rfl

theorem slice_minBitCount (b : Bits) : b.slice 0 (minBitCountUnsigned b.val) = narrow b.val :=
  Bits.ext rfl (by simp [slice_val, narrow])

theorem dropLeadingZeroes_eq (b : Bits) : dropLeadingZeroes b = narrow b.val := by
  rw [dropLeadingZeroes, significantBits_eq, slice_minBitCount]

theorem minBitCount_le (b : Bits) : minBitCountUnsigned b.val ≤ b.width :=
  lt_two_pow_iff_minBitCountUnsigned.mp b.isLt

/-! ### Decimal numbers -/

variable (simpleAtoi : Name → Option Nat)

/-- What the documentation of `absl::SimpleAtoi` says of a single character: it is an integer
if it is a decimal digit. -/
structure SingleDigitAtoi : Prop where
  digit : ∀ c : Char, simpleAtoi [c] = digit? 10 c

variable {simpleAtoi}

theorem uBits_digit {d w : Nat} (hd : d < 10) (hw : 8 ≤ w) : uBits d w = .ok (Bits.ofNat w d) := by
  have hlt : d < 2 ^ w := lt_of_lt_of_le (by omega : d < 2 ^ 8)
    (Nat.pow_le_pow_right (by decide) hw)
  have hmin : d < 2 ^ min w 64 :=
    lt_of_lt_of_le (by omega : d < 2 ^ 8) (Nat.pow_le_pow_right (by decide) (by omega))
  unfold uBits
  rw [decide_eq_true (lt_two_pow_iff_minBitCountUnsigned.mp hlt), and_mask, Nat.mod_eq_of_lt hmin]
  rfl

variable {origString s : Name} {base baseBits : Nat}

section

variable (atoi : SingleDigitAtoi simpleAtoi)
include atoi

/-- One round of the decimal loop. -/
theorem parseDecimal_step {r : Bits} {c : Char} {d : Nat} (hd : digit? 10 c = some d) :
    parseDecimal simpleAtoi origString r (c :: s) =
      parseDecimal simpleAtoi origString (narrow (r.val * 10 + d)) s := by
  have hlt := digit?_lt hd
  have hval : ((r.umul (Bits.ofNat 8 10)).add
      (Bits.ofNat (r.umul (Bits.ofNat 8 10)).width d)).val = r.val * 10 + d := by
    have hr := r.isLt
    have hpow : 2 ^ (r.width + 8) = 2 ^ r.width * 256 := pow_add 2 r.width 8
    have hten : (Bits.ofNat 8 10).val = 10 := rfl
    rw [add_val, umul_val, hten, ofNat_val, umul_width, ofNat_width]
    have hdlt : d < 2 ^ (r.width + 8) := by omega
    rw [Nat.mod_eq_of_lt hdlt, Nat.mod_eq_of_lt (by omega)]
  rw [parseDecimal, atoi.digit, hd]
  simp only
  rw [uBits_digit hlt (by simp), ok_bind, dropLeadingZeroes_eq, hval]

theorem parseDecimal_digits (h : AllDigits 10 s) (n : Nat) :
    parseDecimal simpleAtoi origString (narrow n) s = .ok (narrow (valueFrom 10 n s)) := by
  induction s generalizing n with
  | nil => rfl
  | cons c s ih =>
    obtain ⟨d, hd⟩ := isSome_iff_exists.mp (h c mem_cons_self)
    rw [parseDecimal_step atoi hd, narrow_val, ih fun e he => h e (mem_cons_of_mem _ he),
      valueFrom, hd, getD_some]

theorem parseDecimal_start (hne : s ≠ []) (h : AllDigits 10 s) :
    parseDecimal simpleAtoi origString (Bits.zero 32) s = .ok (narrow (valueFrom 10 0 s)) := by
  cases s with
  | nil => exact absurd rfl hne
  | cons c s =>
    obtain ⟨d, hd⟩ := isSome_iff_exists.mp (h c mem_cons_self)
    rw [parseDecimal_step atoi hd,
      parseDecimal_digits atoi fun e he => h e (mem_cons_of_mem _ he), valueFrom, hd,
      getD_some]
    rfl

/-- Decimal digits with another character are an error. -/
theorem parseDecimal_status (h : ¬AllDigits 10 s) (r : Bits) :
    IsStatus (parseDecimal simpleAtoi origString r s) := by
  induction s generalizing r with
  | nil => exact absurd (by simp [AllDigits]) h
  | cons c s ih =>
    cases hd : digit? 10 c with
    | none =>
      rw [parseDecimal, atoi.digit, hd]
      exact ⟨_, rfl⟩
    | some d =>
      rw [parseDecimal_step atoi hd]
      refine ih (fun hs => h ?_) _
      exact forall_mem_cons.mpr ⟨by simp [hd], hs⟩

end

/-! ### Unsigned numbers -/

/-- The digits without the separators. -/
def stripped (s : Name) : Name := s.filter (· != '_')

/-- Every piece of the digits can be read. -/
def PiecesRead (base baseBits : Nat) (s : Name) : Prop :=
  stripped s ≠ [] ∧
    ∀ chunk ∈ chunks (64 / baseBits) (stripped s).length (stripped s), Readable base chunk

theorem parseBased_digits (hradix : IsRadix base baseBits) (baseName : String) (origString : Name)
    (h : AllDigits base s) (bitCount : Int) :
    ∃ b, parseBased base baseBits baseName origString s bitCount = .ok (fitTo bitCount b) ∧
      b.val = valueFrom base 0 s := by
  obtain ⟨bs, hbs, -, hval⟩ := parseChunks_digits hradix baseName origString
    s.length (le_refl _) h
  exact ⟨Bits.concat bs, by simp [parseBased, hbs], hval⟩

theorem fitTo_minimum (b : Bits) : fitTo minimumBitCount b = narrow b.val := by
  rw [fitTo, if_pos rfl, countLeadingZeros_eq, slice_minBitCount]

variable {baseName : String} {n : Nat} {input : Name}

theorem parseBased_status (hradix : IsRadix base baseBits) (bitCount : Int) (hne : stripped s ≠ [])
    (h : ¬PiecesRead base baseBits s) :
    IsStatus (parseBased base baseBits baseName origString (stripped s) bitCount) := by
  have hbad : ∃ chunk ∈ chunks (64 / baseBits) (stripped s).length (stripped s),
      ¬Readable base chunk := by
    by_contra hall
    push Not at hall
    exact h ⟨hne, hall⟩
  exact (parseChunks_status hradix _ hbad).bind _

/-- Digits to a base of a power of two are read piece by piece. -/
theorem parseBased_read (hradix : IsRadix base baseBits) (bitCount : Int)
    (h : PiecesRead base baseBits s) :
    ¬IsStatus (parseBased base baseBits baseName origString (stripped s) bitCount) := by
  obtain ⟨-, hstep⟩ := hradix.step
  have hlen : ∀ chunk ∈ chunks (64 / baseBits) (stripped s).length (stripped s),
      chunk.length * baseBits ≤ 64 := by
    intro chunk hmem
    calc chunk.length * baseBits ≤ 64 / baseBits * baseBits :=
          Nat.mul_le_mul_right _ (length_of_mem_chunks _ hmem)
      _ = 64 := hstep
  have hnot := parseChunks_readable hradix baseName origString _ hlen h.2
  rintro ⟨message, hm⟩
  unfold parseBased at hm
  rcases hp : parseChunks base baseBits baseName origString
    (chunks (64 / baseBits) (stripped s).length (stripped s)) with (_ | m) | bs
  · simp [hp] at hm
  · exact hnot ⟨m, hp⟩
  · simp [hp] at hm

theorem parseUnsigned_binary (input origString : Name) (bitCount : Int)
    (hne : stripped input ≠ []) :
    parseUnsignedNumberHelper simpleAtoi input .binary origString bitCount =
      parseBased 2 1 "binary" origString (stripped input) bitCount := by
  rw [parseUnsignedNumberHelper, if_neg (by decide), if_neg (by simpa [stripped] using hne)]
  rfl

theorem parseUnsigned_hex (input origString : Name) (bitCount : Int) (hne : stripped input ≠ []) :
    parseUnsignedNumberHelper simpleAtoi input .hex origString bitCount =
      parseBased 16 4 "hexadecimal" origString (stripped input) bitCount := by
  rw [parseUnsignedNumberHelper, if_neg (by decide), if_neg (by simpa [stripped] using hne)]
  rfl

theorem parseUnsigned_decimal (input origString : Name) (bitCount : Int)
    (hne : stripped input ≠ []) :
    parseUnsignedNumberHelper simpleAtoi input .unsignedDecimal origString bitCount =
      parseDecimal simpleAtoi origString (Bits.zero 32) (stripped input) := by
  rw [parseUnsignedNumberHelper, if_neg (by decide), if_neg (by simpa [stripped] using hne)]
  rfl

theorem parseUnsigned_empty (input origString : Name) (format : FormatPreference) (bitCount : Int)
    (h : stripped input = []) :
    IsStatus (parseUnsignedNumberHelper simpleAtoi input format origString bitCount) := by
  unfold parseUnsignedNumberHelper
  simp only
  split
  · exact ⟨_, rfl⟩
  · rw [if_pos (by simpa [stripped] using h)]
    exact ⟨_, rfl⟩

/-! ### The grammar -/

/-- Digits of a base, with underscores after the first one. -/
def digitsLiteral? (base : Nat) (s : Name) : Option Nat :=
  match s with
  | [] => none
  | c :: rest =>
    if (digit? base c).isSome && rest.all (fun d => d == '_' || (digit? base d).isSome) then
      some (valueFrom base 0 (stripped s))
    else none

/-- `0`, a decimal number without a leading zero, `0b` and binary digits or `0x` and
hexadecimal digits. -/
def magnitude? : Name → Option Nat
  | '0' :: 'b' :: rest => digitsLiteral? 2 rest
  | '0' :: 'x' :: rest => digitsLiteral? 16 rest
  | '0' :: _ :: _ => none
  | s => digitsLiteral? 10 s

/-- A number literal: an optional minus and a magnitude. -/
def literal? : Name → Option (Bool × Nat)
  | '-' :: rest => (magnitude? rest).map (true, ·)
  | s => (magnitude? s).map (false, ·)

/-- A literal has at least one digit, and separators are ignored. -/
theorem digitsLiteral?_some (hsep : digit? base '_' = none) (h : digitsLiteral? base s = some n) :
    stripped s ≠ [] ∧ AllDigits base (stripped s) ∧ n = valueFrom base 0 (stripped s) := by
  cases s with
  | nil => cases h
  | cons c rest =>
    rw [digitsLiteral?] at h
    split at h
    · rename_i hcond
      cases h
      obtain ⟨hc, hrest⟩ := Bool.and_eq_true_iff.mp hcond
      have hne : (c != '_') = true := by
        rw [bne_iff_ne]
        rintro rfl
        simp [hsep] at hc
      refine ⟨by simp [stripped, hne], ?_, rfl⟩
      intro d hd
      obtain ⟨hmem, hd'⟩ := mem_filter.mp hd
      rcases mem_cons.mp hmem with rfl | hmem
      · exact hc
      · have := all_eq_true.mp hrest d hmem
        simpa [(bne_iff_ne.mp hd')] using this
    · cases h

/-! ### What the parser reads -/

/-- The magnitudes that the parser does not refuse. -/
def MagnitudeRead : Name → Prop
  | '0' :: 'b' :: rest => PiecesRead 2 1 rest
  | '0' :: 'x' :: rest => PiecesRead 16 4 rest
  | '0' :: _ :: _ => False
  | s => stripped s ≠ [] ∧ AllDigits 10 (stripped s)

/-- The texts that the parser does not refuse: every piece of 64 bits of a binary or
hexadecimal number is an optional minus, an optional prefix of the base and digits, and a
decimal number has digits and underscores in any order. -/
def Read : Name → Prop
  | '-' :: rest => MagnitudeRead rest
  | s => MagnitudeRead s

section

variable (atoi : SingleDigitAtoi simpleAtoi)
include atoi

/-- The magnitude of a literal of the grammar, in the narrowest bits. -/
theorem getMagnitude_literal (h : magnitude? s = some n) :
    getMagnitude simpleAtoi input s = .ok (narrow n) := by
  unfold magnitude? at h
  split at h
  · obtain ⟨hne, hall, rfl⟩ := digitsLiteral?_some (by decide) h
    obtain ⟨b, hb, hval⟩ := parseBased_digits (.inl ⟨rfl, rfl⟩) "binary" input hall minimumBitCount
    rw [getMagnitude, parseUnsigned_binary _ _ _ hne, hb, fitTo_minimum, hval]
  · obtain ⟨hne, hall, rfl⟩ := digitsLiteral?_some (by decide) h
    obtain ⟨b, hb, hval⟩ :=
      parseBased_digits (.inr ⟨rfl, rfl⟩) "hexadecimal" input hall minimumBitCount
    rw [getMagnitude, parseUnsigned_hex _ _ _ hne, hb, fitTo_minimum, hval]
  · cases h
  · obtain ⟨hne, hall, rfl⟩ := digitsLiteral?_some (by decide) h
    rename_i hb hx h0
    rw [getMagnitude.eq_4 _ _ _ hb hx h0, parseUnsigned_decimal _ _ _ hne,
      parseDecimal_start atoi hne hall]

/-- Where the parser does not read, it returns a status. -/
theorem getMagnitude_status (h : ¬MagnitudeRead s) :
    IsStatus (getMagnitude simpleAtoi input s) := by
  unfold MagnitudeRead at h
  split at h
  · rename_i rest
    rw [getMagnitude]
    by_cases hne : stripped rest = []
    · exact parseUnsigned_empty _ _ _ _ hne
    · rw [parseUnsigned_binary _ _ _ hne]
      exact parseBased_status (.inl ⟨rfl, rfl⟩) _ hne h
  · rename_i rest
    rw [getMagnitude]
    by_cases hne : stripped rest = []
    · exact parseUnsigned_empty _ _ _ _ hne
    · rw [parseUnsigned_hex _ _ _ hne]
      exact parseBased_status (.inr ⟨rfl, rfl⟩) _ hne h
  · rename_i c rest hb hx
    rw [getMagnitude.eq_3 _ _ _ _ (fun h => hb h) (fun h => hx h)]
    exact ⟨_, rfl⟩
  · rename_i hb hx h0
    rw [getMagnitude.eq_4 _ _ _ hb hx h0]
    by_cases hne : stripped s = []
    · exact parseUnsigned_empty _ _ _ _ hne
    · rw [parseUnsigned_decimal _ _ _ hne]
      exact parseDecimal_status atoi (fun hall => h ⟨hne, hall⟩) _

/-- Where the parser reads, it returns bits. -/
theorem getMagnitude_read (h : MagnitudeRead s) : ¬IsStatus (getMagnitude simpleAtoi input s) := by
  unfold MagnitudeRead at h
  split at h
  · rw [getMagnitude, parseUnsigned_binary _ _ _ h.1]
    exact parseBased_read (.inl ⟨rfl, rfl⟩) _ h
  · rw [getMagnitude, parseUnsigned_hex _ _ _ h.1]
    exact parseBased_read (.inr ⟨rfl, rfl⟩) _ h
  · exact h.elim
  · rename_i hb hx h0
    rw [getMagnitude.eq_4 _ _ _ hb hx h0, parseUnsigned_decimal _ _ _ h.1,
      parseDecimal_start atoi h.1 h.2]
    exact not_isStatus_ok _

/-- A literal has its sign and its magnitude in the least width. -/
theorem getSignAndMagnitude_literal {neg : Bool} (h : literal? s = some (neg, n)) :
    getSignAndMagnitude simpleAtoi s = .ok (neg, narrow n) := by
  unfold literal? at h
  unfold getSignAndMagnitude
  split at h
  · obtain ⟨m, hm, heq⟩ := map_eq_some_iff.mp h
    cases heq
    simp only [getMagnitude_literal atoi hm, ok_bind, pure_eq_ok]
  · obtain ⟨m, hm, heq⟩ := map_eq_some_iff.mp h
    cases heq
    split
    · cases hm
    · rename_i _ rest hnot
      exact absurd rfl (hnot rest)
    · simp only [getMagnitude_literal atoi hm, ok_bind, pure_eq_ok]

/-- A text that is not read is an error, with or without its sign. -/
theorem getSignAndMagnitude_status (h : ¬Read s) : IsStatus (getSignAndMagnitude simpleAtoi s) := by
  unfold Read at h
  unfold getSignAndMagnitude
  split at h
  · exact (getMagnitude_status atoi h).bind _
  · split
    · exact ⟨_, rfl⟩
    · rename_i _ rest hnot
      exact absurd rfl (hnot rest)
    · exact (getMagnitude_status atoi h).bind _

end

theorem not_isStatus_map {α β : Type} {r : Result α} (h : ¬IsStatus r) (f : α → β) :
    ¬IsStatus (r >>= fun a => (.ok (f a) : Result β)) := by
  rcases r with (_ | message) | a
  · rintro ⟨m, hm⟩
    cases hm
  · exact absurd ⟨message, rfl⟩ h
  · exact not_isStatus_ok _

/-- A text that is read has a sign and a magnitude. -/
theorem getSignAndMagnitude_read (atoi : SingleDigitAtoi simpleAtoi) (h : Read s) :
    ¬IsStatus (getSignAndMagnitude simpleAtoi s) := by
  unfold Read at h
  unfold getSignAndMagnitude
  split at h
  · exact not_isStatus_map (getMagnitude_read atoi h) _
  · split
    · exact absurd rfl h.1
    · rename_i _ rest hnot
      exact absurd rfl (hnot rest)
    · exact not_isStatus_map (getMagnitude_read atoi h) _

end Xls.NumberParser

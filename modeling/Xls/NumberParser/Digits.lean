import Xls.NumberParser

/-!
# Xls.NumberParser.Digits

What the loops of the number parser compute on digits, and which pieces of a binary or
hexadecimal number `StrTo64Base` refuses.
-/

namespace Xls.NumberParser

open BitsOps List Option

/-- An error status, as opposed to an abort. -/
def IsStatus {α : Type} (r : Result α) : Prop := ∃ message, r = .error (.status message)

theorem IsStatus.bind {α β : Type} {r : Result α} (h : IsStatus r) (f : α → Result β) :
    IsStatus (r >>= f) := by
  obtain ⟨message, rfl⟩ := h
  exact ⟨message, rfl⟩

theorem not_isStatus_ok {α : Type} (a : α) : ¬IsStatus (.ok a : Result α) := by
  rintro ⟨message, h⟩
  cases h

/-! ### The value of digits -/

/-- Whether every character is a digit of the base. -/
def AllDigits (base : Nat) (s : Name) : Prop := ∀ c ∈ s, (digit? base c).isSome = true

instance (base : Nat) (s : Name) : Decidable (AllDigits base s) :=
  List.decidableBAll _ s

/-- The value of digits that follow a number. -/
def valueFrom (base : Nat) : Nat → Name → Nat
  | accum, [] => accum
  | accum, c :: s => valueFrom base (accum * base + (digit? base c).getD 0) s

theorem valueFrom_append (base accum : Nat) (s t : Name) :
    valueFrom base accum (s ++ t) = valueFrom base (valueFrom base accum s) t := by
  induction s generalizing accum with
  | nil => rfl
  | cons c s ih => exact ih _

theorem valueFrom_eq (base accum : Nat) (s : Name) :
    valueFrom base accum s = accum * base ^ s.length + valueFrom base 0 s := by
  induction s generalizing accum with
  | nil => simp [valueFrom]
  | cons c s ih =>
    rw [valueFrom, valueFrom, ih, ih (0 * base + _), length_cons, pow_succ]
    ring

/-- A digit is less than the base. -/
theorem digit?_lt {base : Nat} {c : Char} {d : Nat} (h : digit? base c = some d) : d < base := by
  unfold digit? at h
  have hf : 'f'.toNat = 102 := rfl
  have hF : 'F'.toNat = 70 := rfl
  have h9 : '9'.toNat = 57 := rfl
  have ha : 'a'.toNat = 97 := rfl
  have hA : 'A'.toNat = 65 := rfl
  have h0 : '0'.toNat = 48 := rfl
  simp only at h
  split at h
  · split at h
    · cases h
      omega
    · split at h
      · cases h
        omega
      · split at h <;> cases h
        omega
  · split at h <;> cases h
    omega

/-- A number with `k` digits is less than the power `k` of the base. -/
theorem valueFrom_lt {base : Nat} {s : Name} (h : AllDigits base s) (accum : Nat) :
    valueFrom base accum s < (accum + 1) * base ^ s.length := by
  induction s generalizing accum with
  | nil => simp [valueFrom]
  | cons c s ih =>
    obtain ⟨d, hd⟩ := isSome_iff_exists.mp (h c mem_cons_self)
    have hlt := digit?_lt hd
    have hrest := ih (fun e he => h e (mem_cons_of_mem _ he)) (accum * base + d)
    rw [valueFrom, hd, getD_some, length_cons, pow_succ']
    calc valueFrom base (accum * base + d) s < (accum * base + d + 1) * base ^ s.length := hrest
      _ ≤ (accum * base + base) * base ^ s.length := Nat.mul_le_mul_right _ (by omega)
      _ = (accum + 1) * (base * base ^ s.length) := by ring

/-! ### Binary and hexadecimal digits -/

/-- The two bases that are parsed in pieces, with the bits of a digit. -/
def IsRadix (base baseBits : Nat) : Prop := base = 2 ∧ baseBits = 1 ∨ base = 16 ∧ baseBits = 4

section Radix

variable {base baseBits : Nat} (hradix : IsRadix base baseBits)
include hradix

theorem IsRadix.pow : base = 2 ^ baseBits := by
  obtain ⟨rfl, rfl⟩ | ⟨rfl, rfl⟩ := hradix <;> rfl

theorem IsRadix.step : 0 < baseBits ∧ 64 / baseBits * baseBits = 64 := by
  obtain ⟨rfl, rfl⟩ | ⟨rfl, rfl⟩ := hradix <;> simp

theorem IsRadix.pow_length (n : Nat) : base ^ n = 2 ^ (n * baseBits) := by
  rw [hradix.pow, ← pow_mul, Nat.mul_comm]

variable {original s chunk origString : Name} {baseName : String} {c : Char}

theorem charToDigit_some {d : Nat} (h : digit? base c = some d) :
    charToDigit base original c = .ok d := by
  obtain ⟨rfl, rfl⟩ | ⟨rfl, rfl⟩ := hradix <;> simp [charToDigit, h]

theorem charToDigit_none (h : digit? base c = none) : IsStatus (charToDigit base original c) := by
  obtain ⟨rfl, rfl⟩ | ⟨rfl, rfl⟩ := hradix <;> exact ⟨_, by simp [charToDigit, h]; rfl⟩

/-- Digits that fit in a word are accumulated to their value. -/
theorem accumulate_digits (h : AllDigits base s) {accum : Nat}
    (hfits : (accum + 1) * base ^ s.length ≤ 2 ^ 64) :
    accumulate base original accum s = .ok (valueFrom base accum s) := by
  induction s generalizing accum with
  | nil => rfl
  | cons c s ih =>
    obtain ⟨d, hd⟩ := isSome_iff_exists.mp (h c mem_cons_self)
    have hlt := digit?_lt hd
    have hstep : (accum * base + d + 1) * base ^ s.length ≤ 2 ^ 64 := by
      refine le_trans ?_ hfits
      rw [length_cons, pow_succ']
      calc (accum * base + d + 1) * base ^ s.length
          ≤ (accum * base + base) * base ^ s.length := Nat.mul_le_mul_right _ (by omega)
        _ = (accum + 1) * (base * base ^ s.length) := by ring
    have hbase : 0 < base := by omega
    have hword : (accum * base + d) / 2 ^ 64 = 0 := by
      refine Nat.div_eq_of_lt ?_
      have hpos : 0 < base ^ s.length := Nat.pow_pos hbase
      have := Nat.le_mul_of_pos_right (accum * base + d + 1) hpos
      omega
    rw [accumulate, charToDigit_some hradix hd]
    simp only [Result.ok_bind, hword, ne_eq, not_true_eq_false, if_false]
    rw [ih (fun e he => h e (mem_cons_of_mem _ he)) hstep, valueFrom, hd, getD_some]

/-- A character that is no digit is refused. -/
theorem accumulate_status (h : ¬AllDigits base s) (accum : Nat) :
    IsStatus (accumulate base original accum s) := by
  induction s generalizing accum with
  | nil => exact absurd (by simp [AllDigits]) h
  | cons c s ih =>
    cases hd : digit? base c with
    | none => exact (charToDigit_none hradix hd).bind _
    | some d =>
      rw [accumulate, charToDigit_some hradix hd, Result.ok_bind]
      simp only
      split
      · exact ⟨_, rfl⟩
      · refine ih (fun hs => h ?_) _
        exact forall_mem_cons.mpr ⟨by simp [hd], hs⟩

/-! ### Pieces -/

omit hradix in
/-- What `StrTo64Base` reads of a piece: an optional minus, an optional prefix of the base,
and at least one digit. -/
def Readable (base : Nat) (chunk : Name) : Prop :=
  (consumeBase base (consumePrefix ['-'] chunk).2).2 ≠ [] ∧
    AllDigits base (consumeBase base (consumePrefix ['-'] chunk).2).2

theorem consumeBase_fst (s : Name) : (consumeBase base s).1 = base := by
  obtain ⟨rfl, rfl⟩ | ⟨rfl, rfl⟩ := hradix <;> rfl

theorem length_consumeBase_le (s : Name) : (consumeBase base s).2.length ≤ s.length := by
  obtain ⟨rfl, rfl⟩ | ⟨rfl, rfl⟩ := hradix <;>
  · simp only [consumeBase, consumePrefix]
    simp
    split <;> simp

omit hradix in
theorem length_consumeMinus_le (s : Name) : (consumePrefix ['-'] s).2.length ≤ s.length := by
  unfold consumePrefix
  split <;> simp

theorem readable_zero : Readable base ['0'] ∧ Readable base ['-', '0'] := by
  obtain ⟨rfl, rfl⟩ | ⟨rfl, rfl⟩ := hradix <;> exact ⟨⟨by decide, by decide⟩, by decide, by decide⟩

/-- A chunk with another character is an error. -/
theorem strTo64Base_status (h : ¬Readable base chunk) : IsStatus (strTo64Base chunk base) := by
  have hzero : ¬(chunk = ['0'] ∨ chunk = ['-', '0']) := by
    rintro (rfl | rfl)
    · exact h (readable_zero hradix).1
    · exact h (readable_zero hradix).2
  have hbase : ¬base < 2 := by obtain ⟨rfl, rfl⟩ | ⟨rfl, rfl⟩ := hradix <;> decide
  simp only [strTo64Base, if_neg hzero, consumeBase_fst hradix, if_neg hbase]
  split
  · exact ⟨_, rfl⟩
  · rename_i hne
    refine (accumulate_status hradix (fun hall => h ⟨by simpa using hne, hall⟩) 0).bind _

/-- A readable piece of at most 64 bits has a value of 64 bits. -/
theorem strTo64Base_readable (h : Readable base chunk) (hlen : chunk.length * baseBits ≤ 64) :
    ∃ v < 2 ^ 64, strTo64Base chunk base = .ok v := by
  obtain ⟨hne, hall⟩ := h
  have hbase : ¬base < 2 := by obtain ⟨rfl, rfl⟩ | ⟨rfl, rfl⟩ := hradix <;> decide
  simp only [strTo64Base, consumeBase_fst hradix, if_neg hbase]
  split
  · exact ⟨0, by decide, rfl⟩
  · rw [if_neg (by simpa using hne)]
    have hshort : (consumeBase base (consumePrefix ['-'] chunk).2).2.length * baseBits ≤ 64 :=
      le_trans (Nat.mul_le_mul_right _ (le_trans (length_consumeBase_le hradix _)
        (length_consumeMinus_le chunk))) hlen
    have hfits : (0 + 1) * base ^ (consumeBase base (consumePrefix ['-'] chunk).2).2.length ≤
        2 ^ 64 := by
      rw [hradix.pow_length, Nat.zero_add, Nat.one_mul]
      exact Nat.pow_le_pow_right (by decide) hshort
    rw [accumulate_digits hradix hall hfits]
    have hlt := valueFrom_lt hall 0
    refine ⟨_, ?_, rfl⟩
    split
    · simp only [u64]
      omega
    · omega

theorem not_minus_of_allDigits (h : AllDigits base (c :: s)) : c ≠ '-' := by
  rintro rfl
  have := h '-' mem_cons_self
  obtain ⟨rfl, rfl⟩ | ⟨rfl, rfl⟩ := hradix <;> revert this <;> decide

/-- Digits have neither a sign nor a prefix. -/
theorem consumeBase_digits (h : AllDigits base s) : (consumeBase base s).2 = s := by
  have hleads : ∀ c, digit? base c = none → ∀ t : Name, ['0', c].isPrefixOf s = true → False := by
    intro c hc _ hp
    obtain ⟨t, rfl⟩ := isPrefixOf_iff_prefix.mp hp
    have := h c (by simp)
    simp [hc] at this
  obtain ⟨rfl, rfl⟩ | ⟨rfl, rfl⟩ := hradix
  · simp only [consumeBase, consumePrefix]
    simp only [OfNat.ofNat_ne_zero, if_false, Nat.reduceEqDiff, if_true]
    rw [if_neg (fun hp => hleads 'b' (by decide) [] hp)]
  · simp only [consumeBase, consumePrefix]
    simp only [OfNat.ofNat_ne_zero, if_false, if_true]
    rw [if_neg (fun hp => hleads 'x' (by decide) [] hp)]

section

variable (hne : chunk ≠ []) (h : AllDigits base chunk) (hlen : chunk.length * baseBits ≤ 64)
include hne h hlen

/-- A chunk of digits is read as its number. -/
theorem strTo64Base_digits : strTo64Base chunk base = .ok (valueFrom base 0 chunk) := by
  have hbase : ¬base < 2 := by obtain ⟨rfl, rfl⟩ | ⟨rfl, rfl⟩ := hradix <;> decide
  have hminus : consumePrefix ['-'] chunk = (false, chunk) := by
    cases chunk with
    | nil => rfl
    | cons c s =>
      have := not_minus_of_allDigits hradix h
      simp [consumePrefix, this.symm]
  by_cases hzero : chunk = ['0'] ∨ chunk = ['-', '0']
  · obtain rfl | rfl := hzero
    · obtain ⟨rfl, rfl⟩ | ⟨rfl, rfl⟩ := hradix <;> rfl
    · exact absurd rfl (not_minus_of_allDigits hradix h)
  · have hfits : (0 + 1) * base ^ chunk.length ≤ 2 ^ 64 := by
      rw [hradix.pow_length, Nat.zero_add, Nat.one_mul]
      exact Nat.pow_le_pow_right (by decide) hlen
    simp only [strTo64Base, if_neg hzero, hminus, consumeBase_fst hradix, if_neg hbase,
      consumeBase_digits hradix h]
    rw [if_neg (by simpa using hne), accumulate_digits hradix h hfits]
    rfl

/-- A piece of digits is converted to as many bits. -/
theorem parseChunk_digits :
    parseChunk base baseBits baseName origString chunk =
      .ok (Bits.ofNat (chunk.length * baseBits) (valueFrom base 0 chunk)) := by
  have hlt := valueFrom_lt h 0
  rw [Nat.zero_add, Nat.one_mul, hradix.pow_length] at hlt
  simp only [parseChunk, strTo64Base_digits hradix hne h hlen]
  exact uBits_eq hlen hlt

end

theorem parseChunk_status (h : ¬Readable base chunk) :
    IsStatus (parseChunk base baseBits baseName origString chunk) := by
  obtain ⟨message, hstatus⟩ := strTo64Base_status hradix h
  simp only [parseChunk, hstatus]
  exact ⟨_, rfl⟩

/-- A readable piece either fits or makes the process abort. -/
theorem parseChunk_readable (baseName : String) (origString : Name) (h : Readable base chunk)
    (hlen : chunk.length * baseBits ≤ 64) :
    ¬IsStatus (parseChunk base baseBits baseName origString chunk) ∧ (chunk.length * baseBits = 64 →
        ∃ b, parseChunk base baseBits baseName origString chunk = .ok b) := by
  obtain ⟨v, hv, hok⟩ := strTo64Base_readable hradix h hlen
  simp only [parseChunk, hok]
  constructor
  · rintro ⟨message, hm⟩
    unfold uBits checkThat at hm
    split at hm <;> cases hm
  · intro h64
    rw [h64]
    exact ⟨_, uBits_eq (le_refl 64) hv⟩

/-- The bits of the pieces of digits hold the value of the digits. -/
theorem parseChunks_digits (baseName : String) (origString : Name) (fuel : Nat)
    (hfuel : s.length ≤ fuel) (h : AllDigits base s) :
    ∃ bs, parseChunks base baseBits baseName origString (chunks (64 / baseBits) fuel s) = .ok bs ∧
      (Bits.concat bs).width = s.length * baseBits ∧ (Bits.concat bs).val = valueFrom base 0 s := by
  obtain ⟨hpos, hstep⟩ := hradix.step
  have hstep' : 0 < 64 / baseBits := Nat.pos_of_ne_zero (by rintro h0; simp [h0] at hstep)
  induction fuel generalizing s with
  | zero =>
    obtain rfl := eq_nil_of_length_eq_zero (by omega : s.length = 0)
    exact ⟨[], rfl, by simp [Bits.concat], rfl⟩
  | succ fuel ih =>
    cases s with
    | nil => exact ⟨[], rfl, by simp [Bits.concat], rfl⟩
    | cons c s =>
      have hdrop : ((c :: s).drop (64 / baseBits)).length ≤ fuel := by
        rw [length_drop]
        simp only [length_cons] at hfuel ⊢
        omega
      obtain ⟨bs, hbs, hwidth, hval⟩ := ih hdrop fun e he => h e (mem_of_mem_drop he)
      have hlen : ((c :: s).take (64 / baseBits)).length * baseBits ≤ 64 := by
        calc ((c :: s).take (64 / baseBits)).length * baseBits
            ≤ 64 / baseBits * baseBits := Nat.mul_le_mul_right _ (by simp)
          _ = 64 := hstep
      have hne : (c :: s).take (64 / baseBits) ≠ [] := by
        refine ne_nil_of_length_pos ?_
        simp only [length_take, length_cons]
        omega
      have hdigits : AllDigits base ((c :: s).take (64 / baseBits)) :=
        fun e he => h e (mem_of_mem_take he)
      have hlt := valueFrom_lt hdigits 0
      rw [Nat.zero_add, Nat.one_mul, hradix.pow_length] at hlt
      have hlength : ((c :: s).take (64 / baseBits)).length +
          ((c :: s).drop (64 / baseBits)).length = (c :: s).length := by
        rw [← length_append, take_append_drop]
      refine ⟨_, by rw [chunks, parseChunks, parseChunk_digits hradix hne hdigits hlen, hbs]; rfl,
        ?_, ?_⟩
      · rw [Bits.concat, Bits.append_width, hwidth, Bits.ofNat_width, ← Nat.add_mul, hlength]
      · rw [Bits.concat, Bits.append_val, hwidth, hval, Bits.ofNat_val_of_lt hlt]
        conv_rhs => rw [← take_append_drop (64 / baseBits) (c :: s), valueFrom_append,
          valueFrom_eq, hradix.pow_length]

omit hradix in
/-- The pieces are no longer than the step. -/
theorem length_of_mem_chunks {step : Nat} (fuel : Nat) (h : chunk ∈ chunks step fuel s) :
    chunk.length ≤ step := by
  induction fuel generalizing s with
  | zero => cases h
  | succ fuel ih =>
    cases s with
    | nil => cases h
    | cons c s =>
      rcases mem_cons.mp h with rfl | h
      · simp
      · exact ih h

/-- Pieces of digits that fit 64 bits each are read. -/
theorem parseChunks_readable (baseName : String) (origString : Name) (pieces : List Name)
    (hlen : ∀ chunk ∈ pieces, chunk.length * baseBits ≤ 64)
    (h : ∀ chunk ∈ pieces, Readable base chunk) :
    ¬IsStatus (parseChunks base baseBits baseName origString pieces) := by
  induction pieces with
  | nil => exact not_isStatus_ok _
  | cons chunk rest ih =>
    have hfirst := (parseChunk_readable hradix baseName origString
      (h chunk mem_cons_self) (hlen chunk mem_cons_self)).1
    have hrest := ih (fun e he => hlen e (mem_cons_of_mem _ he))
      fun e he => h e (mem_cons_of_mem _ he)
    rw [parseChunks]
    rcases hc : parseChunk base baseBits baseName origString chunk with (_ | message) | b
    · rintro ⟨message, hm⟩
      cases hm
    · exact absurd ⟨message, hc⟩ hfirst
    · rcases hr : parseChunks base baseBits baseName origString rest with (_ | message) | bs
      · rintro ⟨message, hm⟩
        cases hm
      · exact absurd ⟨message, hr⟩ hrest
      · exact not_isStatus_ok _

/-- A piece that cannot be read is refused: those before it are whole words, which fit. -/
theorem parseChunks_status (fuel : Nat)
    (h : ∃ chunk ∈ chunks (64 / baseBits) fuel s, ¬Readable base chunk) :
    IsStatus (parseChunks base baseBits baseName origString (chunks (64 / baseBits) fuel s)) := by
  obtain ⟨hpos, hstep⟩ := hradix.step
  induction fuel generalizing s with
  | zero =>
    obtain ⟨chunk, hmem, -⟩ := h
    cases hmem
  | succ fuel ih =>
    cases s with
    | nil =>
      obtain ⟨chunk, hmem, -⟩ := h
      cases hmem
    | cons c s =>
      rw [chunks, parseChunks]
      by_cases hfirst : Readable base ((c :: s).take (64 / baseBits))
      · obtain ⟨chunk, hmem, hbad⟩ := h
        have hmem' : chunk ∈ chunks (64 / baseBits) fuel ((c :: s).drop (64 / baseBits)) := by
          rcases mem_cons.mp hmem with rfl | hmem
          · exact absurd hfirst hbad
          · exact hmem
        -- There is more after this piece, so it has the full length.
        have hmore : (c :: s).drop (64 / baseBits) ≠ [] := by
          intro hnil
          rw [hnil] at hmem'
          cases fuel <;> cases hmem'
        have hfull : ((c :: s).take (64 / baseBits)).length * baseBits = 64 := by
          have : 64 / baseBits < (c :: s).length := by
            by_contra hle
            exact hmore (drop_eq_nil_of_le (by omega))
          rw [length_take_of_le this.le, hstep]
        obtain ⟨b, hb⟩ := (parseChunk_readable hradix baseName origString hfirst
          hfull.le).2 hfull
        rw [hb, Result.ok_bind]
        exact (ih ⟨chunk, hmem', hbad⟩).bind _
      · exact (parseChunk_status hradix hfirst).bind _

end Radix

end Xls.NumberParser

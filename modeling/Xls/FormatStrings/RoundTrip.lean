import Xls.FormatStrings

/-!
# Xls.FormatStrings.RoundTrip

Printing the steps of a format string gives the string again
(`parseFormatString_round_trip`), and the strings that parse are those that are made of plain
characters, doubled braces and specifiers.
-/

namespace Xls.FormatStrings

/-- `FormatPreferenceToXlsSpecifier`. -/
def xlsSpecifier : FormatPreference → List Char
  | .default => ['{', '}']
  | .binary => ['{', ':', '#', 'b', '}']
  | .unsignedDecimal => ['{', ':', 'u', '}']
  | .signedDecimal => ['{', ':', 'd', '}']
  | .hex => ['{', ':', '#', 'x', '}']
  | .plainBinary => ['{', ':', 'b', '}']
  | .plainHex => ['{', ':', 'x', '}']

/-- `StepsToXlsFormatString`. -/
def stepsToXlsFormatString : List FormatStep → List Char
  | [] => []
  | .fragment text :: steps => text ++ stepsToXlsFormatString steps
  | .preference p :: steps => xlsSpecifier p ++ stepsToXlsFormatString steps

/-- The format strings: every brace belongs to a doubled brace or to a specifier. -/
inductive WellFormed : List Char → Prop
  | nil : WellFormed []
  | open {rest : List Char} : WellFormed rest → WellFormed ('{' :: '{' :: rest)
  | close {rest : List Char} : WellFormed rest → WellFormed ('}' :: '}' :: rest)
  | specifier (p : FormatPreference) {rest : List Char} :
      WellFormed rest → WellFormed (xlsSpecifier p ++ rest)
  | char {c : Char} {rest : List Char} :
      c ≠ '{' → c ≠ '}' → WellFormed rest → WellFormed (c :: rest)

/-! ### The string that is printed -/

@[simp] theorem stepsToXlsFormatString_push (fragment : List Char) (steps : List FormatStep) :
    stepsToXlsFormatString (pushFragment fragment steps) =
      fragment ++ stepsToXlsFormatString steps := by
  cases fragment <;> rfl

variable {fragment rest : List Char} {r : Result (List FormatStep)} {p : FormatPreference}

/-- The case of a specifier. -/
theorem print_of_specifier (ih : ∀ steps, r = .ok steps → stepsToXlsFormatString steps = [] ++ rest)
    {steps : List FormatStep}
    (h : (r >>= fun steps => pure (pushFragment fragment (.preference p :: steps))) = .ok steps) :
    stepsToXlsFormatString steps = fragment ++ (xlsSpecifier p ++ rest) := by
  obtain ⟨rest, hrest, h⟩ := Result.bind_eq_ok.1 h
  cases h
  rw [stepsToXlsFormatString_push, stepsToXlsFormatString, ih _ hrest, List.nil_append]

/-- What has been read as a fragment and what is left are printed. -/
theorem stepsToXlsFormatString_parseFrom (format : List Char) (i : Nat)
    (fragment rest : List Char) :
    ∀ steps, parseFrom format i fragment rest = .ok steps →
      stepsToXlsFormatString steps = fragment ++ rest := by
  fun_induction parseFrom format i fragment rest with
  | case1 _ fragment =>
    intro steps h
    cases h
    rw [stepsToXlsFormatString_push, stepsToXlsFormatString]
  | case2 i fragment rest ih =>
    intro steps h
    rw [ih steps h, List.append_assoc]
    rfl
  | case3 i fragment rest ih =>
    intro steps h
    rw [ih steps h, List.append_assoc]
    rfl
  | case4 i fragment rest ih => exact fun _ h => print_of_specifier ih h
  | case5 i fragment rest ih => exact fun _ h => print_of_specifier ih h
  | case6 i fragment rest ih => exact fun _ h => print_of_specifier ih h
  | case7 i fragment rest ih => exact fun _ h => print_of_specifier ih h
  | case8 i fragment rest ih => exact fun _ h => print_of_specifier ih h
  | case9 i fragment rest ih => exact fun _ h => print_of_specifier ih h
  | case10 i fragment rest ih => exact fun _ h => print_of_specifier ih h
  | case11 =>
    intro steps h
    cases h
  | case12 =>
    intro steps h
    cases h
  | case13 i fragment c rest _ _ _ _ _ _ _ _ _ hopen hclose ih =>
    intro steps h
    rw [ih steps h, List.append_assoc]
    rfl

/-! ### The strings that parse -/

/-- A brace opens a doubled brace or a specifier. -/
theorem wellFormed_open {rest : List Char} (h : WellFormed ('{' :: rest)) :
    (∃ rest', rest = '{' :: rest' ∧ WellFormed rest') ∨
      ∃ p rest', '{' :: rest = xlsSpecifier p ++ rest' ∧ WellFormed rest' := by
  generalize htext : '{' :: rest = text at h
  cases h with
  | nil => cases htext
  | «open» h =>
    cases htext
    exact .inl ⟨_, rfl, h⟩
  | close h => cases htext
  | specifier p h => exact .inr ⟨p, _, rfl, h⟩
  | char hopen =>
    cases htext
    exact absurd rfl hopen

theorem wellFormed_close {rest : List Char} (h : WellFormed ('}' :: rest)) :
    ∃ rest', rest = '}' :: rest' ∧ WellFormed rest' := by
  generalize htext : '}' :: rest = text at h
  cases h with
  | nil => cases htext
  | «open» h => cases htext
  | close h =>
    cases htext
    exact ⟨_, rfl, h⟩
  | specifier p h => cases p <;> cases htext
  | char _ hclose =>
    cases htext
    exact absurd rfl hclose

theorem wellFormed_specifier (h : WellFormed (xlsSpecifier p ++ rest)) : WellFormed rest := by
  have hopen : ∃ tail, xlsSpecifier p ++ rest = '{' :: tail := by cases p <;> exact ⟨_, rfl⟩
  obtain ⟨tail, htail⟩ := hopen
  rw [htail] at h
  obtain ⟨rest', rfl, -⟩ | ⟨q, rest', hq, hrest'⟩ := wellFormed_open h
  · cases p <;> cases htail
  · -- No specifier is the beginning of another.
    rw [← htail] at hq
    cases p <;> cases q <;> cases hq <;> exact hrest'

/-- The case of a specifier. -/
theorem parses_of_specifier (ih : (∃ steps, r = .ok steps) ↔ WellFormed rest)
    (p : FormatPreference) :
    (∃ steps, (r >>= fun steps => pure (pushFragment fragment (.preference p :: steps))) =
      .ok steps) ↔ WellFormed (xlsSpecifier p ++ rest) := by
  constructor
  · intro h
    obtain ⟨steps, h⟩ := h
    obtain ⟨steps, hsteps, -⟩ := Result.bind_eq_ok.1 h
    exact .specifier p (ih.mp ⟨steps, hsteps⟩)
  · intro h
    obtain ⟨steps, rfl⟩ := ih.mpr (wellFormed_specifier h)
    exact ⟨_, rfl⟩

/-- Parsing succeeds exactly on well-formed format strings. -/
theorem parses_iff (format : List Char) (i : Nat) (fragment rest : List Char) :
    (∃ steps, parseFrom format i fragment rest = .ok steps) ↔ WellFormed rest := by
  fun_induction parseFrom format i fragment rest with
  | case1 => exact ⟨fun _ => .nil, fun _ => ⟨_, rfl⟩⟩
  | case2 i fragment rest ih =>
    rw [ih]
    refine ⟨.open, fun h => ?_⟩
    obtain ⟨rest', hrest, h⟩ | ⟨p, rest', hp, -⟩ := wellFormed_open h
    · cases hrest
      exact h
    · cases p <;> cases hp
  | case3 i fragment rest ih =>
    rw [ih]
    refine ⟨.close, fun h => ?_⟩
    obtain ⟨rest', hrest, h⟩ := wellFormed_close h
    cases hrest
    exact h
  | case4 i fragment rest ih => exact parses_of_specifier ih .default
  | case5 i fragment rest ih => exact parses_of_specifier ih .unsignedDecimal
  | case6 i fragment rest ih => exact parses_of_specifier ih .signedDecimal
  | case7 i fragment rest ih => exact parses_of_specifier ih .plainHex
  | case8 i fragment rest ih => exact parses_of_specifier ih .hex
  | case9 i fragment rest ih => exact parses_of_specifier ih .plainBinary
  | case10 i fragment rest ih => exact parses_of_specifier ih .binary
  | case11 i fragment rest hbrace hdefault hu hd hx hhex hb hbinary =>
    -- The brace starts none of the tokens that were tried.
    refine ⟨(by rintro ⟨_, h⟩; cases h), fun h => ?_⟩
    obtain ⟨rest', rfl, -⟩ | ⟨p, rest', hp, -⟩ := wellFormed_open h
    · exact absurd rfl (hbrace rest')
    · cases p with
      | default => cases hp; exact absurd rfl (hdefault rest')
      | unsignedDecimal => cases hp; exact absurd rfl (hu rest')
      | signedDecimal => cases hp; exact absurd rfl (hd rest')
      | plainHex => cases hp; exact absurd rfl (hx rest')
      | hex => cases hp; exact absurd rfl (hhex rest')
      | plainBinary => cases hp; exact absurd rfl (hb rest')
      | binary => cases hp; exact absurd rfl (hbinary rest')
  | case12 i fragment rest hbrace =>
    refine ⟨(by rintro ⟨_, h⟩; cases h), fun h => ?_⟩
    obtain ⟨rest', rfl, -⟩ := wellFormed_close h
    exact absurd rfl (hbrace rest')
  | case13 i fragment c rest _ _ _ _ _ _ _ _ _ hopen hclose ih =>
    rw [ih]
    refine ⟨.char hopen hclose, fun h => ?_⟩
    generalize htext : c :: rest = text at h
    cases h with
    | nil => cases htext
    | «open» => cases htext; exact absurd rfl hopen
    | close => cases htext; exact absurd rfl hclose
    | specifier p => cases p <;> cases htext <;> exact absurd rfl hopen
    | char _ _ h =>
      cases htext
      exact h

/-- Format strings round-trip, and exactly the well-formed ones parse. -/
theorem parseFormatString_round_trip (format : List Char) :
    (∀ steps, parseFormatString format = .ok steps → stepsToXlsFormatString steps = format ∧
      parseFormatString (stepsToXlsFormatString steps) = .ok steps) ∧
    ((∃ steps, parseFormatString format = .ok steps) ↔ WellFormed format) := by
  refine ⟨fun steps h => ?_, parses_iff format 0 [] format⟩
  have hprint : stepsToXlsFormatString steps = format :=
    stepsToXlsFormatString_parseFrom format 0 [] format steps h
  exact ⟨hprint, by rw [hprint]; exact h⟩

/-- A closing brace after a specifier is an error, a doubled one is not. -/
example : WellFormed ['{', '}', '}', '}'] ∧ ¬ WellFormed ['{', '}', '}'] := by
  rw [← parses_iff [] 0 [], ← parses_iff [] 0 []]
  exact ⟨⟨_, rfl⟩, fun h => nomatch h⟩

end Xls.FormatStrings

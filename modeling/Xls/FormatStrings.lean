import Xls.Ir

/-!
# Xls.FormatStrings

Format strings of `trace` (`xls/ir/format_strings.cc`), what the interpreter appends for
them (`HandleTrace`), and what a Verilog simulator displays for the string that code
generation makes of them.

What is shown is a sequence of characters and specifiers. The text of an operand depends on
its value and on the simulator; it is represented by its specifier, so two sequences are
equal if the literal text is the same. `sameLiteralText_iff` says for which format strings
the two agree.
-/

namespace Xls

open List

inductive FormatPreference
  | default | binary | signedDecimal | unsignedDecimal | hex | plainBinary | plainHex
  deriving DecidableEq

inductive FormatStep
  | fragment (text : List Char)
  | preference (p : FormatPreference)
  deriving DecidableEq

namespace FormatStrings

/-! ### Parsing -/

/-- `push_fragment`. -/
def pushFragment (fragment : List Char) (steps : List FormatStep) : List FormatStep :=
  if fragment.isEmpty then steps else .fragment fragment :: steps

/-- The error for a brace that starts no specifier. -/
def unmatchedOpen (format rest : List Char) (i : Nat) : Failure :=
  let f := String.ofList format
  if rest.contains '}' then
    let specifier := String.ofList (rest.takeWhile (· != '}') ++ ['}'])
    .status s!"Invalid or unsupported format specifier \"{specifier}\" in format string \"{f}\""
  else .status s!"\x7b without matching \x7d at position {i} in format string \"{f}\""

/-- The error for a closing brace. -/
def unmatchedClose (format : List Char) (i : Nat) : Failure :=
  let f := String.ofList format
  .status s!"\x7d with no preceding \x7b at position {i} in format string \"{f}\""

/-- The loop of `ParseFormatString`, on the characters from position `i` on and with the
fragment that has been read. -/
def parseFrom (format : List Char) : Nat → List Char → List Char → Result (List FormatStep)
  | _, fragment, [] => .ok (pushFragment fragment [])
  | i, fragment, '{' :: '{' :: rest => parseFrom format (i + 2) (fragment ++ ['{', '{']) rest
  | i, fragment, '}' :: '}' :: rest => parseFrom format (i + 2) (fragment ++ ['}', '}']) rest
  | i, fragment, '{' :: '}' :: rest => do
    let steps ← parseFrom format (i + 2) [] rest
    return pushFragment fragment (.preference .default :: steps)
  | i, fragment, '{' :: ':' :: 'u' :: '}' :: rest => do
    let steps ← parseFrom format (i + 4) [] rest
    return pushFragment fragment (.preference .unsignedDecimal :: steps)
  | i, fragment, '{' :: ':' :: 'd' :: '}' :: rest => do
    let steps ← parseFrom format (i + 4) [] rest
    return pushFragment fragment (.preference .signedDecimal :: steps)
  | i, fragment, '{' :: ':' :: 'x' :: '}' :: rest => do
    let steps ← parseFrom format (i + 4) [] rest
    return pushFragment fragment (.preference .plainHex :: steps)
  | i, fragment, '{' :: ':' :: '#' :: 'x' :: '}' :: rest => do
    let steps ← parseFrom format (i + 5) [] rest
    return pushFragment fragment (.preference .hex :: steps)
  | i, fragment, '{' :: ':' :: 'b' :: '}' :: rest => do
    let steps ← parseFrom format (i + 4) [] rest
    return pushFragment fragment (.preference .plainBinary :: steps)
  | i, fragment, '{' :: ':' :: '#' :: 'b' :: '}' :: rest => do
    let steps ← parseFrom format (i + 5) [] rest
    return pushFragment fragment (.preference .binary :: steps)
  | i, _, '{' :: rest => .error (unmatchedOpen format ('{' :: rest) i)
  | i, _, '}' :: _ => .error (unmatchedClose format i)
  | i, fragment, c :: rest => parseFrom format (i + 1) (fragment ++ [c]) rest

/-- `ParseFormatString`. -/
def parseFormatString (format : List Char) : Result (List FormatStep) :=
  parseFrom format 0 [] format

/-- `OperandsExpectedByFormat`. -/
def operandsExpectedByFormat : List FormatStep → Nat
  | [] => 0
  | .fragment _ :: steps => operandsExpectedByFormat steps
  | .preference _ :: steps => operandsExpectedByFormat steps + 1

/-! ### Printing -/

/-- The loop of `HandleTrace`: fragments are appended as they are, and operands in their
format. -/
def handleTrace {β : Type} (char : Char → β) (operand : FormatPreference → Value → List β) :
    List FormatStep → List Value → Result (List β)
  | [], [] => .ok []
  | [], _ :: _ => .error (.status "Too many operands")
  | .fragment text :: steps, args => do
    let rest ← handleTrace char operand steps args
    return text.map char ++ rest
  | .preference _ :: _, [] => .error (.status "Not enough operands")
  | .preference p :: steps, arg :: args => do
    let rest ← handleTrace char operand steps args
    return operand p arg ++ rest

/-- `FormatPreferenceToVerilogSpecifier`. -/
def verilogSpecifier : FormatPreference → List Char
  | .default => ['%', 'd']
  | .signedDecimal => ['%', 'd']
  | .unsignedDecimal => ['%', 'u']
  | .binary => ['0', 'b', '%', 'b']
  | .hex => ['0', 'x', '%', 'h']
  | .plainBinary => ['%', 'b']
  | .plainHex => ['%', 'h']

/-- Convert doubled braces to single ones, from left to right. -/
def replaceBraces : List Char → List Char
  | '{' :: '{' :: rest => '{' :: replaceBraces rest
  | '}' :: '}' :: rest => '}' :: replaceBraces rest
  | c :: rest => c :: replaceBraces rest
  | [] => []

/-- `StepsToVerilogFormatString`. -/
def stepsToVerilogFormatString : List FormatStep → List Char
  | [] => []
  | .fragment text :: steps => replaceBraces text ++ stepsToVerilogFormatString steps
  | .preference p :: steps => verilogSpecifier p ++ stepsToVerilogFormatString steps

/-! ### What is shown -/

/-- A character, or the text of an operand. -/
inductive Shown
  | char (c : Char)
  | operand (specifier : List Char)
  deriving DecidableEq

/-- The flags and the width that may stand between the percent sign and the letter of a
specifier. -/
def isFlag (c : Char) : Bool := c.isDigit || c == '-' || c == '.'

/-- `$display`: a percent sign starts a specifier, unless it is doubled. The first argument
is what has been read of a specifier. -/
def displayFrom : Option (List Char) → List Char → Option (List Shown)
  | none, [] => some []
  | some _, [] => none
  | none, c :: rest =>
    if c = '%' then displayFrom (some []) rest else (displayFrom none rest).map (.char c :: ·)
  | some flags, c :: rest =>
    if flags = [] ∧ c = '%' then (displayFrom none rest).map (.char '%' :: ·)
    else if isFlag c then displayFrom (some (flags ++ [c])) rest
    else (displayFrom none rest).map (.operand (flags ++ [c]) :: ·)

/-- What a simulator displays for a format. -/
def display (format : List Char) : Option (List Shown) := displayFrom none format

/-- What is shown for an operand with a preference. -/
def operandShown : FormatPreference → List Shown
  | .default => [.operand ['d']]
  | .signedDecimal => [.operand ['d']]
  | .unsignedDecimal => [.operand ['u']]
  | .binary => [.char '0', .char 'b', .operand ['b']]
  | .hex => [.char '0', .char 'x', .operand ['h']]
  | .plainBinary => [.operand ['b']]
  | .plainHex => [.operand ['h']]

/-- The literal text that the interpreter appends is the text that a simulator displays. -/
def SameLiteralText (steps : List FormatStep) : Prop :=
  ∀ args : List Value, args.length = operandsExpectedByFormat steps →
    ∃ shown, handleTrace Shown.char (fun p _ => operandShown p) steps args = .ok shown ∧
      display (stepsToVerilogFormatString steps) = some shown

/-- A fragment without braces and percent signs. -/
def isPlain (step : FormatStep) : Bool :=
  match step with
  | .fragment text => text.all fun c => c != '{' && c != '}' && c != '%'
  | .preference _ => true

/-! ### Fragments have their braces doubled -/

/-- Braces stand in pairs. -/
inductive Doubled : List Char → Prop
  | nil : Doubled []
  | open {text : List Char} : Doubled text → Doubled ('{' :: '{' :: text)
  | close {text : List Char} : Doubled text → Doubled ('}' :: '}' :: text)
  | char {c : Char} {text : List Char} : c ≠ '{' → c ≠ '}' → Doubled text → Doubled (c :: text)

variable {text fragment format : List Char} {steps : List FormatStep} {c : Char}
  {shown : List Shown}

theorem Doubled.append {text' : List Char} (h : Doubled text) (h' : Doubled text') :
    Doubled (text ++ text') := by
  induction h with
  | nil => exact h'
  | «open» _ ih => exact .open ih
  | close _ ih => exact .close ih
  | char hopen hclose _ ih => exact .char hopen hclose ih

/-- The fragments of the steps have their braces doubled. -/
def FragmentsDoubled (steps : List FormatStep) : Prop :=
  ∀ text, .fragment text ∈ steps → Doubled text

theorem fragmentsDoubled_push (h : Doubled fragment) (hsteps : FragmentsDoubled steps) :
    FragmentsDoubled (pushFragment fragment steps) := by
  unfold pushFragment
  split
  · exact hsteps
  · intro text htext
    rcases mem_cons.1 htext with heq | hmem
    · cases heq
      exact h
    · exact hsteps text hmem

theorem fragmentsDoubled_preference (hsteps : FragmentsDoubled steps) (p : FormatPreference) :
    FragmentsDoubled (.preference p :: steps) := by
  intro text htext
  rcases mem_cons.1 htext with heq | hmem
  · cases heq
  · exact hsteps text hmem

/-- The case of a specifier, for the induction over the parser. -/
theorem fragmentsDoubled_of_specifier (hfragment : Doubled fragment) {r : Result (List FormatStep)}
    (ih : ∀ steps, r = .ok steps → FragmentsDoubled steps) {p : FormatPreference}
    (h : (r >>= fun steps => pure (pushFragment fragment (.preference p :: steps))) = .ok steps) :
    FragmentsDoubled steps := by
  obtain ⟨rest, hrest, h⟩ := Result.bind_eq_ok.1 h
  cases h
  exact fragmentsDoubled_push hfragment (fragmentsDoubled_preference (ih rest hrest) p)

/-- The fragments that are parsed have their braces doubled. -/
theorem fragmentsDoubled_of_parseFrom {i : Nat} {rest : List Char} (hfragment : Doubled fragment) :
    ∀ steps, parseFrom format i fragment rest = .ok steps → FragmentsDoubled steps := by
  fun_induction parseFrom format i fragment rest with
  | case1 _ fragment =>
    intro steps h
    cases h
    exact fragmentsDoubled_push hfragment fun text htext => by cases htext
  | case2 i fragment rest ih => exact ih (hfragment.append (.open .nil))
  | case3 i fragment rest ih => exact ih (hfragment.append (.close .nil))
  | case4 i fragment rest ih => exact fun _ h => fragmentsDoubled_of_specifier hfragment (ih .nil) h
  | case5 i fragment rest ih => exact fun _ h => fragmentsDoubled_of_specifier hfragment (ih .nil) h
  | case6 i fragment rest ih => exact fun _ h => fragmentsDoubled_of_specifier hfragment (ih .nil) h
  | case7 i fragment rest ih => exact fun _ h => fragmentsDoubled_of_specifier hfragment (ih .nil) h
  | case8 i fragment rest ih => exact fun _ h => fragmentsDoubled_of_specifier hfragment (ih .nil) h
  | case9 i fragment rest ih => exact fun _ h => fragmentsDoubled_of_specifier hfragment (ih .nil) h
  | case10 i fragment rest ih =>
    exact fun _ h => fragmentsDoubled_of_specifier hfragment (ih .nil) h
  | case11 =>
    intro steps h
    cases h
  | case12 =>
    intro steps h
    cases h
  | case13 i fragment c rest _ _ _ _ _ _ _ _ _ hopen hclose ih =>
    exact ih (hfragment.append (.char hopen hclose .nil))

theorem replaceBraces_cons (hopen : c ≠ '{') (hclose : c ≠ '}') (text : List Char) :
    replaceBraces (c :: text) = c :: replaceBraces text := by
  rw [replaceBraces]
  · exact fun _ h => absurd h hopen
  · exact fun _ h => absurd h hclose

/-- The pairs of a brace become single braces. -/
theorem Doubled.count_brace (h : Doubled text) (hc : c = '{' ∨ c = '}') :
    text.count c = 2 * (replaceBraces text).count c := by
  induction h with
  | nil => rfl
  | «open» _ ih =>
    rw [replaceBraces, count_cons, count_cons, count_cons, ih]
    split <;> omega
  | close _ ih =>
    rw [replaceBraces, count_cons, count_cons, count_cons, ih]
    split <;> omega
  | char hopen hclose _ ih =>
    rw [replaceBraces_cons hopen hclose, count_cons, count_cons, ih, if_neg]
    · omega
    · rw [beq_iff_eq]
      rintro rfl
      exact hc.elim hopen hclose

/-- Percent signs stay. -/
theorem Doubled.count_percent (h : Doubled text) :
    (replaceBraces text).count '%' = text.count '%' := by
  induction h with
  | nil => rfl
  | «open» _ ih =>
    rw [replaceBraces, count_cons_of_ne (by decide), count_cons_of_ne (by decide),
      count_cons_of_ne (by decide), ih]
  | close _ ih =>
    rw [replaceBraces, count_cons_of_ne (by decide), count_cons_of_ne (by decide),
      count_cons_of_ne (by decide), ih]
  | char hopen hclose _ ih =>
    rw [replaceBraces_cons hopen hclose, count_cons, count_cons, ih]

/-! ### Counting what is shown -/

/-- The occurrences of a character in the fragments. -/
def fragmentCount (c : Char) : List FormatStep → Nat
  | [] => 0
  | .fragment text :: steps => text.count c + fragmentCount c steps
  | .preference _ :: steps => fragmentCount c steps

/-- The number of operands that are shown. -/
def operandCount (shown : List Shown) : Nat :=
  shown.countP fun
    | .char _ => false
    | .operand _ => true

theorem count_map_char (c : Char) (text : List Char) :
    (text.map Shown.char).count (.char c) = text.count c := by
  refine count_map_of_injective _ _ ?_ _
  intro a b h
  cases h
  rfl

theorem operandCount_map_char (text : List Char) : operandCount (text.map Shown.char) = 0 := by
  unfold operandCount
  rw [countP_map, countP_eq_zero]
  intro c _ h
  cases h

variable {args : List Value} {state : Option (List Char)}

/-- The characters that are shown: those of the fragments, and one mark for each operand. -/
theorem handleTrace_counts
    (h : handleTrace Shown.char (fun p _ => operandShown p) steps args = .ok shown)
    (hc : c = '{' ∨ c = '}' ∨ c = '%') :
    shown.count (.char c) = fragmentCount c steps ∧
      operandCount shown = operandsExpectedByFormat steps := by
  induction steps generalizing args shown with
  | nil =>
    cases args with
    | nil =>
      cases h
      exact ⟨rfl, rfl⟩
    | cons arg args => cases h
  | cons step steps ih =>
    cases step with
    | fragment text =>
      obtain ⟨rest, hrest, h⟩ := Result.bind_eq_ok.1 h
      cases h
      obtain ⟨hcount, hoperands⟩ := ih hrest
      refine ⟨?_, ?_⟩
      · rw [count_append, count_map_char, hcount, fragmentCount]
      · unfold operandCount at hoperands ⊢
        rw [countP_append, hoperands]
        have hzero := operandCount_map_char text
        unfold operandCount at hzero
        rw [hzero, operandsExpectedByFormat, Nat.zero_add]
    | preference p =>
      cases args with
      | nil => cases h
      | cons arg args =>
        obtain ⟨rest, hrest, h⟩ := Result.bind_eq_ok.1 h
        cases h
        obtain ⟨hcount, hoperands⟩ := ih hrest
        refine ⟨?_, ?_⟩
        · have hzero : (operandShown p).count (.char c) = 0 := by
            rcases hc with rfl | rfl | rfl <;> cases p <;> rfl
          rw [count_append, hzero, Nat.zero_add, hcount, fragmentCount]
        · have hone : operandCount (operandShown p) = 1 := by
            cases p <;> rfl
          unfold operandCount at hone hoperands ⊢
          rw [countP_append, hone, hoperands, operandsExpectedByFormat, Nat.add_comm]

/-- The doubled characters of the Verilog format string. -/
theorem count_stepsToVerilogFormatString (h : FragmentsDoubled steps) :
    (stepsToVerilogFormatString steps).count '%' =
        fragmentCount '%' steps + operandsExpectedByFormat steps ∧ ∀ c, c = '{' ∨ c = '}' →
        2 * (stepsToVerilogFormatString steps).count c = fragmentCount c steps := by
  induction steps with
  | nil => exact ⟨rfl, fun _ _ => rfl⟩
  | cons step steps ih =>
    obtain ⟨hpercent, hbrace⟩ := ih fun text htext => h text (mem_cons_of_mem _ htext)
    cases step with
    | fragment text =>
      have htext := h text mem_cons_self
      refine ⟨?_, fun c hc => ?_⟩
      · rw [stepsToVerilogFormatString, count_append, htext.count_percent, hpercent,
          fragmentCount, operandsExpectedByFormat, Nat.add_assoc]
      · rw [stepsToVerilogFormatString, count_append, Nat.mul_add, hbrace c hc,
          ← htext.count_brace hc, fragmentCount]
    | preference p =>
      have hone : (verilogSpecifier p).count '%' = 1 := by
        cases p <;> rfl
      refine ⟨?_, fun c hc => ?_⟩
      · rw [stepsToVerilogFormatString, count_append, hone, hpercent, fragmentCount,
          operandsExpectedByFormat]
        omega
      · have hzero : (verilogSpecifier p).count c = 0 := by
          rcases hc with rfl | rfl <;> cases p <;> rfl
        rw [stepsToVerilogFormatString, count_append, hzero, Nat.zero_add, hbrace c hc,
          fragmentCount]

/-- A shown percent sign takes two percent signs of the format, and an operand takes one. A
started specifier has taken one already. -/
theorem displayFrom_percents (h : displayFrom state format = some shown) :
    2 * shown.count (.char '%') + operandCount shown ≤
      format.count '%' + if state.isSome then 1 else 0 := by
  induction format generalizing state shown with
  | nil =>
    cases state with
    | none =>
      cases h
      exact Nat.le_refl _
    | some flags => cases h
  | cons c rest ih =>
    cases state with
    | none =>
      rw [displayFrom] at h
      split at h
      · rename_i hc
        have hrest := ih h
        rw [hc, count_cons_self]
        simp only [Option.isSome_some, Option.isSome_none, if_true, Bool.false_eq_true,
          if_false] at hrest ⊢
        omega
      · rename_i hc
        obtain ⟨items, hitems, rfl⟩ := Option.map_eq_some_iff.1 h
        have hrest := ih hitems
        rw [count_cons_of_ne (by simpa using hc), count_cons_of_ne hc]
        exact hrest
    | some flags =>
      rw [displayFrom] at h
      split at h
      · rename_i hc
        obtain ⟨items, hitems, rfl⟩ := Option.map_eq_some_iff.1 h
        have hrest := ih hitems
        rw [hc.2, count_cons_self, count_cons_self]
        simp only [operandCount, countP_cons, Option.isSome_some, Option.isSome_none,
          if_true, Bool.false_eq_true, if_false] at hrest ⊢
        omega
      · have hle := count_le_count_cons (a := '%') (b := c) (l := rest)
        split at h
        · have hrest := ih h
          simp only [Option.isSome_some, if_true] at hrest ⊢
          omega
        · obtain ⟨items, hitems, rfl⟩ := Option.map_eq_some_iff.1 h
          have hrest := ih hitems
          rw [count_cons_of_ne (by simp)]
          simp only [operandCount, countP_cons, Option.isSome_some, Option.isSome_none,
            if_true, Bool.false_eq_true, if_false] at hrest ⊢
          omega

/-- A format string shows no character more often than it contains it. -/
theorem displayFrom_count (h : displayFrom state format = some shown) (hc : c ≠ '%') :
    shown.count (.char c) ≤ format.count c := by
  induction format generalizing state shown with
  | nil =>
    cases state with
    | none =>
      cases h
      exact Nat.le_refl _
    | some flags => cases h
  | cons d rest ih =>
    have hle := count_le_count_cons (a := c) (b := d) (l := rest)
    cases state with
    | none =>
      rw [displayFrom] at h
      split at h
      · exact (ih h).trans hle
      · obtain ⟨items, hitems, rfl⟩ := Option.map_eq_some_iff.1 h
        have hrest := ih hitems
        rw [count_cons, count_cons]
        have hbeq : (Shown.char d == Shown.char c) = (d == c) := by
          rw [Bool.eq_iff_iff, beq_iff_eq, beq_iff_eq, Shown.char.injEq]
        rw [hbeq]
        omega
    | some flags =>
      rw [displayFrom] at h
      split at h
      · obtain ⟨items, hitems, rfl⟩ := Option.map_eq_some_iff.1 h
        rw [count_cons_of_ne (by simpa using hc.symm)]
        exact (ih hitems).trans hle
      · split at h
        · exact (ih h).trans hle
        · obtain ⟨items, hitems, rfl⟩ := Option.map_eq_some_iff.1 h
          rw [count_cons_of_ne (by simp)]
          exact (ih hitems).trans hle

/-! ### The same text -/

theorem displayFrom_text (h : '%' ∉ text) (rest : List Char) :
    displayFrom none (text ++ rest) = (displayFrom none rest).map (text.map Shown.char ++ ·) := by
  induction text with
  | nil => simp
  | cons c text ih =>
    rw [mem_cons, not_or] at h
    rw [cons_append, displayFrom, if_neg (Ne.symm h.1), ih h.2, Option.map_map]
    rfl

theorem displayFrom_verilogSpecifier (p : FormatPreference) (rest : List Char) :
    displayFrom none (verilogSpecifier p ++ rest) =
      (displayFrom none rest).map (operandShown p ++ ·) := by
  cases p <;> simp [verilogSpecifier, displayFrom, operandShown, isFlag, Function.comp_def]

theorem replaceBraces_eq (hopen : '{' ∉ text) (hclose : '}' ∉ text) :
    replaceBraces text = text := by
  induction text with
  | nil => rfl
  | cons c text ih =>
    rw [mem_cons, not_or] at hopen hclose
    rw [replaceBraces_cons (Ne.symm hopen.1) (Ne.symm hclose.1), ih hopen.2 hclose.2]

/-- A plain fragment has none of the characters with a meaning. -/
theorem isPlain_fragment :
    isPlain (.fragment text) = true ↔ '{' ∉ text ∧ '}' ∉ text ∧ '%' ∉ text := by
  unfold isPlain
  rw [all_eq_true]
  constructor
  · intro h
    refine ⟨fun hmem => ?_, fun hmem => ?_, fun hmem => ?_⟩
    · simpa using h _ hmem
    · simpa using h _ hmem
    · simpa using h _ hmem
  · rintro ⟨hopen, hclose, hpercent⟩ c hc
    have h1 : c ≠ '{' := fun heq => hopen (heq ▸ hc)
    have h2 : c ≠ '}' := fun heq => hclose (heq ▸ hc)
    have h3 : c ≠ '%' := fun heq => hpercent (heq ▸ hc)
    simp [h1, h2, h3]

/-- Plain fragments are displayed as the interpreter appends them. -/
theorem display_plain (h : ∀ step ∈ steps, isPlain step = true)
    (hargs : args.length = operandsExpectedByFormat steps) :
    ∃ shown, handleTrace Shown.char (fun p _ => operandShown p) steps args = .ok shown ∧
      display (stepsToVerilogFormatString steps) = some shown := by
  induction steps generalizing args with
  | nil =>
    cases length_eq_zero_iff.1 hargs
    exact ⟨[], rfl, rfl⟩
  | cons step steps ih =>
    rw [forall_mem_cons] at h
    cases step with
    | fragment text =>
      obtain ⟨hopen, hclose, hpercent⟩ := isPlain_fragment.1 h.1
      obtain ⟨rest, hrest, hdisplay⟩ := ih h.2 hargs
      refine ⟨text.map Shown.char ++ rest, by rw [handleTrace, hrest]; rfl, ?_⟩
      unfold display at hdisplay ⊢
      rw [stepsToVerilogFormatString, replaceBraces_eq hopen hclose,
        displayFrom_text hpercent, hdisplay]
      rfl
    | preference p =>
      cases args with
      | nil => cases hargs
      | cons arg args =>
        obtain ⟨rest, hrest, hdisplay⟩ := ih h.2 (Nat.succ.inj hargs)
        refine ⟨operandShown p ++ rest, by rw [handleTrace, hrest]; rfl, ?_⟩
        unfold display at hdisplay ⊢
        rw [stepsToVerilogFormatString, displayFrom_verilogSpecifier, hdisplay]
        rfl

/-- A character that no fragment counts occurs in none. -/
theorem fragmentCount_eq_zero (h : fragmentCount c steps = 0) (htext : .fragment text ∈ steps) :
    c ∉ text := by
  induction steps with
  | nil => cases htext
  | cons step steps ih =>
    cases step with
    | fragment text' =>
      rw [fragmentCount, Nat.add_eq_zero_iff] at h
      rcases mem_cons.1 htext with heq | hmem
      · cases heq
        exact count_eq_zero.1 h.1
      · exact ih h.2 hmem
    | preference p =>
      rcases mem_cons.1 htext with heq | hmem
      · cases heq
      · exact ih h hmem

/-- The text of a trace is the same in simulation and in hardware exactly if its fragments
have no braces and no percent signs. -/
theorem sameLiteralText_iff (format : List Char) (steps : List FormatStep)
    (hparse : parseFormatString format = .ok steps) :
    SameLiteralText steps ↔ ∀ step ∈ steps, isPlain step = true := by
  constructor
  · intro h
    have hdoubled : FragmentsDoubled steps := fragmentsDoubled_of_parseFrom .nil steps hparse
    obtain ⟨shown, htrace, hdisplay⟩ := h (List.replicate (operandsExpectedByFormat steps)
      Value.token) length_replicate
    obtain ⟨hpercents, hbraces⟩ := count_stepsToVerilogFormatString hdoubled
    have hbrace : ∀ c, c = '{' ∨ c = '}' → fragmentCount c steps = 0 := by
      intro c hc
      have hne : c ≠ '%' := by
        rcases hc with rfl | rfl <;> decide
      have hcount := (handleTrace_counts htrace (c := c) (by tauto)).1
      have hle := displayFrom_count hdisplay hne
      have htwice := hbraces c hc
      omega
    have hpercent : fragmentCount '%' steps = 0 := by
      obtain ⟨hcount, hoperands⟩ := handleTrace_counts htrace (c := '%') (.inr (.inr rfl))
      have hle := displayFrom_percents hdisplay
      simp only [Option.isSome_none, Bool.false_eq_true, if_false] at hle
      omega
    intro step hstep
    cases step with
    | fragment text =>
      exact isPlain_fragment.2 ⟨fragmentCount_eq_zero (hbrace _ (.inl rfl)) hstep,
        fragmentCount_eq_zero (hbrace _ (.inr rfl)) hstep, fragmentCount_eq_zero hpercent hstep⟩
    | preference p => rfl
  · exact fun h args hargs => display_plain h hargs

/-- A format with an operand and plain text around it. -/
theorem sameLiteralText_plain :
    SameLiteralText [.fragment ['x', '='], .preference .hex, .fragment ['!']] :=
  (sameLiteralText_iff ['x', '=', '{', ':', '#', 'x', '}', '!'] _ rfl).2 (by decide)

/-- The interpreter shows doubled braces and a simulator shows single ones; a simulator takes
a percent sign for a specifier. -/
theorem not_sameLiteralText_braces_percent :
    (∃ steps, parseFormatString ['{', '{'] = .ok steps ∧ ¬ SameLiteralText steps) ∧
      ∃ steps, parseFormatString ['%', 'd'] = .ok steps ∧ ¬ SameLiteralText steps := by
  refine ⟨⟨_, rfl, fun h => ?_⟩, ⟨_, rfl, fun h => ?_⟩⟩
  · obtain ⟨shown, htrace, hdisplay⟩ := h [] rfl
    cases htrace
    revert hdisplay
    decide
  · obtain ⟨shown, htrace, hdisplay⟩ := h [] rfl
    cases htrace
    revert hdisplay
    decide

end FormatStrings

end Xls

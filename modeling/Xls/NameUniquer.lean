import Mathlib.Data.List.Nodup
import Mathlib.Logic.Function.Basic
import Xls.Lib.FirstFresh
import Xls.Status

/-!
# Xls.NameUniquer

Unique names (`xls/ir/name_uniquer.h`, `name_uniquer.cc`). A name is a list of characters,
one for each byte of the string.

`absl::SimpleAtoi` is not part of the repository. It is a parameter of the model, and
`SimpleAtoiSpec` states what its documentation says and the uniquer relies on.
`returnsFreshNames_of_allMeet` says of whole runs that the names are fresh and well formed.
-/

namespace Xls

open List Nat Bool

/-- The characters of a string. -/
abbrev Name := List Char

namespace NameUniquer

/-! ### Sanitizing -/

/-- `IsAllowed`. -/
def isAllowed (c : Char) : Bool := c.isAlphanum || c == '_'

/-- `NameUniquer::IsValidIdentifier`. -/
def isValidIdentifier : Name → Bool
  | [] => false
  | c :: rest => (c.isAlpha || c == '_') && rest.all isAllowed

/-- The characters that are not allowed are replaced. -/
def replaceDisallowed (c : Char) : Char := if isAllowed c then c else '_'

/-- A name that does not begin with a letter or an underscore gets one. -/
def fixStart : Name → Name
  | [] => []
  | c :: rest => if !c.isAlpha && c != '_' then '_' :: c :: rest else c :: rest

/-- `while (reserved_names.contains(result)) result = "_" + result`. -/
def avoidReserved (reservedNames : List Name) (name : Name) : Name :=
  firstFresh ('_' :: ·) reservedNames (reservedNames.length + 1) name

/-- `SanitizeName`. The loop that replaces characters runs up to the length of the name
without the underscores that have been put before it. -/
def sanitizeName (reservedNames : List Name) (name : Name) : Name :=
  if name.isEmpty then []
  else
    let result := avoidReserved reservedNames name
    fixStart ((result.take name.length).map replaceDisallowed ++ result.drop name.length)

/-! ### Identifiers -/

/-- The end of the range of `int64_t`. -/
def int64End : Int := 2 ^ 63

/-- `SequentialIdGenerator`. -/
structure SequentialIdGenerator where
  next : Int := 1
  used : List Int := []

/-- Advance `next` to the first unregistered value. Incrementing the greatest `int64_t` is
undefined. -/
def SequentialIdGenerator.advance (next : Int) (used : List Int) : Result SequentialIdGenerator :=
  let next := firstFresh (· + 1) used (used.length + 1) next
  if next < int64End then .ok { next, used } else .error .check

/-- `SequentialIdGenerator::RegisterId`. -/
def SequentialIdGenerator.registerId (g : SequentialIdGenerator) (id : Int) :
    Result (Int × SequentialIdGenerator) :=
  if id ∉ g.used then do
    let g ← advance g.next (id :: g.used)
    return (id, g)
  else do
    checkThat (g.next ∉ g.used)
    let g' ← advance g.next (g.next :: g.used)
    return (g.next, g')

/-- `SequentialIdGenerator::NextId`. -/
def SequentialIdGenerator.nextId (g : SequentialIdGenerator) :
    Result (Int × SequentialIdGenerator) :=
  g.registerId g.next

/-- `PrefixTracker`. -/
structure PrefixTracker where
  barePrefixTaken : Bool := false
  generator : SequentialIdGenerator := {}

/-! ### The uniquer -/

/-- `separator.rfind`: the last position at which the separator stands. -/
def rfind (separator : Name) : Name → Option Nat
  | [] => if separator.isEmpty then some 0 else none
  | c :: rest =>
    match rfind separator rest with
    | some i => some (i + 1)
    | none => if separator.isPrefixOf (c :: rest) then some 0 else none

/-- Strip away a numeric suffix. -/
def stripNumericSuffix (simpleAtoi : Name → Option Int) (separator root : Name) :
    Name × Option Int :=
  match rfind separator root with
  | none => (root, none)
  | some i =>
    match simpleAtoi (root.drop (i + separator.length)) with
    | some n => (root.take i, some n)
    | none => (root, none)

/-- If the root is empty after stripping off the suffix, use a generic name. -/
def orGeneric (root : Name) : Name := if root.isEmpty then ['n', 'a', 'm', 'e'] else root

/-- The text of an integer in `absl::StrCat`. -/
def decimal (i : Int) : Name :=
  if i < 0 then '-' :: toDigits 10 i.natAbs else toDigits 10 i.toNat

end NameUniquer

/-- The map of the generated names is total: a root that has not been seen has the default
tracker, which is what `operator[]` creates. -/
structure NameUniquer where
  separator : Name
  reservedNames : List Name
  generatedNames : Name → NameUniquer.PrefixTracker

namespace NameUniquer

/-- The constructor. -/
def create (separator : Name) (reservedNames : List Name) : NameUniquer where
  separator
  reservedNames
  generatedNames _ := {}

/-- Store the tracker of a root. -/
def setTracker (u : NameUniquer) (root : Name) (t : PrefixTracker) : NameUniquer :=
  { u with generatedNames := Function.update u.generatedNames root t }

/-- The name with the number that the generator gives. -/
def numbered (u : NameUniquer) (root : Name)
    (register : SequentialIdGenerator → Result (Int × SequentialIdGenerator)) :
    Result (Name × NameUniquer) := do
  let tracker := u.generatedNames root
  let (id, generator) ← register tracker.generator
  return (root ++ u.separator ++ decimal id, u.setTracker root { tracker with generator })

variable (simpleAtoi : Name → Option Int)

/-- `NameUniquer::GetSanitizedUniqueName`. -/
def getSanitizedUniqueName (u : NameUniquer) (name : Name) : Result (Name × NameUniquer) :=
  let (stripped, suffix) :=
    stripNumericSuffix simpleAtoi u.separator (sanitizeName u.reservedNames name)
  let root := orGeneric stripped
  let tracker := u.generatedNames root
  match suffix with
  | some i => u.numbered root (·.registerId i)
  | none =>
    if tracker.barePrefixTaken then u.numbered root (·.nextId)
    else .ok (root, u.setTracker root { tracker with barePrefixTaken := true })

/-- The names that a sequence of calls returns. -/
def getNames (u : NameUniquer) : List Name → Result (List Name)
  | [] => .ok []
  | name :: rest => do
    let (result, u) ← getSanitizedUniqueName simpleAtoi u name
    let results ← u.getNames rest
    return result :: results

/-! ### The library functions -/

/-- What the documentation of `absl::SimpleAtoi` says: a decimal integer in the range of the
type is converted to its value, a value out of the range is refused, and only a minus sign
makes a value negative. -/
structure SimpleAtoiSpec : Prop where
  decimal : ∀ i, -int64End ≤ i → i < int64End → simpleAtoi (decimal i) = some i
  in_range : ∀ s i, simpleAtoi s = some i → -int64End ≤ i ∧ i < int64End
  nonneg : ∀ s i, simpleAtoi s = some i → '-' ∉ s → 0 ≤ i

variable {i : Int} {c : Char} {separator s root name : Name} {k : Nat}

theorem isDigit_of_mem_decimal (hi : 0 ≤ i) (hc : c ∈ decimal i) : c.isDigit := by
  rw [decimal, if_neg (by omega)] at hc
  exact isDigit_of_mem_toDigits (by decide) (by decide) hc

theorem underscore_not_mem_decimal (i : Int) : '_' ∉ decimal i := by
  intro hmem
  unfold decimal at hmem
  split at hmem
  · rcases mem_cons.mp hmem with h | h
    · cases h
    · cases isDigit_of_mem_toDigits (by decide) (by decide) h
  · cases isDigit_of_mem_toDigits (by decide) (by decide) hmem

/-! ### The separator -/

/-- What stands at the position that is found. -/
theorem rfind_some {i : Nat} (h : rfind separator s = some i) :
    ∃ rest, s = s.take i ++ separator ++ rest := by
  induction s generalizing i with
  | nil =>
    rw [rfind] at h
    split at h
    · rename_i hsep
      exact ⟨[], by simp [List.isEmpty_iff.mp hsep]⟩
    · cases h
  | cons c s ih =>
    rw [rfind] at h
    cases hrest : rfind separator s with
    | some j =>
      rw [hrest] at h
      cases h
      obtain ⟨rest, hs⟩ := ih hrest
      exact ⟨rest, by rw [take_succ_cons, cons_append, cons_append, ← hs]⟩
    | none =>
      simp only [hrest] at h
      split at h
      · rename_i hleads
        cases h
        obtain ⟨rest, hs⟩ := isPrefixOf_iff_prefix.mp hleads
        exact ⟨rest, by simpa using hs.symm⟩
      · cases h

/-- A separator with more underscores than the text is not found. -/
theorem rfind_none (h : s.count '_' < k) : rfind (replicate k '_') s = none := by
  cases hfind : rfind (replicate k '_') s with
  | none => rfl
  | some i =>
    obtain ⟨rest, hs⟩ := rfind_some hfind
    rw [hs, count_append, count_append, count_replicate_self] at h
    omega

/-- A position in a text stays found when something is put before the text. -/
theorem rfind_append {i : Nat} (h : rfind separator s = some i) (r : Name) :
    rfind separator (r ++ s) = some (r.length + i) := by
  induction r with
  | nil => simpa using h
  | cons c r ih =>
    rw [cons_append, rfind, ih]
    simp only [length_cons, Option.some.injEq]
    omega

variable {simpleAtoi}

/-- A numbered name is taken apart into what it was made of. -/
theorem stripNumericSuffix_numbered (atoi : SimpleAtoiSpec simpleAtoi) (k : Nat) (root : Name)
    (hlow : -int64End ≤ i) (hhigh : i < int64End) :
    stripNumericSuffix simpleAtoi (replicate (k + 1) '_')
      (root ++ replicate (k + 1) '_' ++ decimal i) = (root, some i) := by
  -- Without its first underscore the rest has too few of them to hold the separator.
  have hcount : (replicate k '_' ++ decimal i).count '_' < k + 1 := by
    rw [count_append, count_replicate_self, count_eq_zero_of_not_mem (underscore_not_mem_decimal i)]
    omega
  have hfind : rfind (replicate (k + 1) '_') (replicate (k + 1) '_' ++ decimal i) =
      some 0 := by
    rw [replicate_succ, cons_append, rfind, ← replicate_succ, rfind_none hcount]
    have hleads : (replicate (k + 1) '_').isPrefixOf
        ('_' :: (replicate k '_' ++ decimal i)) = true :=
      isPrefixOf_iff_prefix.mpr ⟨decimal i, by simp [replicate_succ]⟩
    simp [hleads]
  have hroot := rfind_append hfind root
  rw [← List.append_assoc] at hroot
  have hdrop : (root ++ replicate (k + 1) '_' ++ decimal i).drop (root.length + (k + 1)) =
      decimal i := by
    rw [drop_append_of_le_length (by simp)]
    simp
  have htake : (root ++ replicate (k + 1) '_' ++ decimal i).take root.length = root := by simp
  rw [stripNumericSuffix, hroot]
  simp only [Nat.add_zero, length_replicate, hdrop, htake, atoi.decimal i hlow hhigh]

/-- What is stripped is a beginning of the name, and the number is in the range. -/
theorem stripNumericSuffix_fst (simpleAtoi : Name → Option Int) (separator root : Name) :
    (stripNumericSuffix simpleAtoi separator root).1 <+: root := by
  unfold stripNumericSuffix
  split
  · exact prefix_rfl
  · split
    · exact take_prefix _ _
    · exact prefix_rfl

theorem stripNumericSuffix_none (h : (stripNumericSuffix simpleAtoi separator root).2 = none) :
    (stripNumericSuffix simpleAtoi separator root).1 = root := by
  unfold stripNumericSuffix at h ⊢
  split at h
  · rfl
  · split at h
    · cases h
    · rfl

/-- A suffix that is stripped is a number. -/
theorem stripNumericSuffix_some {n : Int}
    (h : (stripNumericSuffix simpleAtoi separator root).2 = some n) :
    ∃ j, simpleAtoi (root.drop j) = some n := by
  unfold stripNumericSuffix at h
  split at h
  · cases h
  · rename_i i hfind
    split at h
    · rename_i m hm
      cases h
      exact ⟨_, hm⟩
    · cases h

/-! ### The generator -/

theorem iterate_succ_int (k : Nat) (n : Int) : (· + 1)^[k] n = n + k := by
  induction k with
  | zero => simp
  | succ k ih =>
    rw [Function.iterate_succ_apply', ih]
    push_cast
    omega

theorem iterate_succ_injective (n : Int) : Function.Injective fun k : Nat => (· + 1)^[k] n := by
  intro a b h
  simp only [iterate_succ_int] at h
  omega

/-- The identifiers below `next` are used, and `next` is not. -/
structure SequentialIdGenerator.Valid (g : SequentialIdGenerator) : Prop where
  pos : 1 ≤ g.next
  fresh : g.next ∉ g.used
  below : ∀ i, 1 ≤ i → i < g.next → i ∈ g.used
  bound : g.next < int64End

theorem SequentialIdGenerator.valid_default : SequentialIdGenerator.Valid {} where
  pos := le_refl _
  fresh := not_mem_nil
  below := fun i h h' => absurd h (by simpa using h')
  bound := by decide

/-- There are at least as many identifiers used as there are below `next`. -/
theorem next_le_length {next : Int} {used : List Int} (hpos : 1 ≤ next)
    (hbelow : ∀ i, 1 ≤ i → i < next → i ∈ used) : next ≤ used.length + 1 := by
  have hcount := iterate_count_le used (iterate_succ_injective 1) (k := (next - 1).toNat)
    (by
      intro j hj
      rw [iterate_succ_int]
      exact hbelow _ (by omega) (by omega))
  omega

/-- The loop that advances `next` ends in the range when not too many identifiers are used. -/
theorem SequentialIdGenerator.advance_spec {next : Int} (used : List Int) (hpos : 1 ≤ next)
    (hbelow : ∀ i, 1 ≤ i → i < next → i ∈ used) (hroom : (used.length : Int) + 1 < int64End) :
    ∃ g, advance next used = .ok g ∧ g.Valid ∧ g.used = used := by
  obtain ⟨k, hk, hused, hfresh⟩ := firstFresh_spec used (iterate_succ_injective next)
  rw [iterate_succ_int] at hk hfresh
  have hbelow' : ∀ i, 1 ≤ i → i < next + k → i ∈ used := by
    intro i hi hlt
    by_cases hnext : i < next
    · exact hbelow i hi hnext
    · have := hused (i - next).toNat (by omega)
      rw [iterate_succ_int] at this
      rwa [show next + ((i - next).toNat : Int) = i by omega] at this
  have hlen := next_le_length (by omega) hbelow'
  have hend : next + k < int64End := by omega
  refine ⟨⟨next + k, used⟩, ?_, ⟨by simp only; omega, hfresh, hbelow', hend⟩, rfl⟩
  simp only [advance, hk, if_pos hend]

/-- `RegisterId` returns an identifier that was not used; its `CHECK` holds. -/
theorem SequentialIdGenerator.registerId_spec {g : SequentialIdGenerator} (hg : g.Valid) (id : Int)
    (hroom : (g.used.length : Int) + 2 < int64End) :
    ∃ result g', g.registerId id = .ok (result, g') ∧ g'.Valid ∧ g'.used = result :: g.used ∧
      result ∉ g.used ∧ (result = id ∨ 1 ≤ result ∧ result < int64End) := by
  unfold registerId
  split
  · rename_i hid
    obtain ⟨g', heq, hvalid, hused⟩ := advance_spec (id :: g.used) hg.pos
      (fun i hi hlt => mem_cons_of_mem _ (hg.below i hi hlt))
      (by simp only [length_cons]; omega)
    exact ⟨id, g', by simp [heq], hvalid, hused, hid, .inl rfl⟩
  · obtain ⟨g', heq, hvalid, hused⟩ := advance_spec (g.next :: g.used) hg.pos
      (fun i hi hlt => mem_cons_of_mem _ (hg.below i hi hlt))
      (by simp only [length_cons]; omega)
    refine ⟨g.next, g', ?_, hvalid, hused, hg.fresh, .inr ⟨hg.pos, hg.bound⟩⟩
    simp [hg.fresh, heq]

/-! ### Sanitized names -/

theorem iterate_underscore (k : Nat) (name : Name) :
    ('_' :: ·)^[k] name = replicate k '_' ++ name := by
  induction k with
  | zero => rfl
  | succ k ih => rw [Function.iterate_succ_apply', ih, replicate_succ, cons_append]

/-- Underscores are put before a name until it is not reserved. -/
theorem avoidReserved_spec (reservedNames : List Name) (name : Name) :
    ∃ k, avoidReserved reservedNames name = replicate k '_' ++ name ∧
      replicate k '_' ++ name ∉ reservedNames := by
  have hinj : Function.Injective fun k : Nat => ('_' :: ·)^[k] name := by
    intro a b h
    have := congrArg List.length h
    simpa [iterate_underscore] using this
  obtain ⟨k, hk, -, hfresh⟩ := firstFresh_spec reservedNames hinj
  rw [iterate_underscore] at hk hfresh
  exact ⟨k, hk, hfresh⟩

theorem isAllowed_replaceDisallowed (c : Char) : isAllowed (replaceDisallowed c) = true := by
  unfold replaceDisallowed
  split
  · assumption
  · decide

theorem replaceDisallowed_of_isAllowed (h : isAllowed c = true) :
    replaceDisallowed c = c := if_pos h

theorem isAllowed_of_isDigit (h : c.isDigit = true) : isAllowed c = true := by
  simp [isAllowed, Char.isAlphanum, h]

theorem isAllowed_of_start (h : (c.isAlpha || c == '_') = true) : isAllowed c = true := by
  simp only [isAllowed, Char.isAlphanum, or_eq_true] at h ⊢
  tauto

/-- An identifier starts with a letter or an underscore and has allowed characters only. -/
theorem isValidIdentifier_iff :
    isValidIdentifier name = true ↔ (∃ c rest, name = c :: rest ∧ (c.isAlpha || c == '_') = true) ∧
        ∀ c ∈ name, isAllowed c = true := by
  cases name with
  | nil => simp [isValidIdentifier]
  | cons c rest =>
    simp only [isValidIdentifier, and_eq_true, all_eq_true]
    constructor
    · rintro ⟨hc, hrest⟩
      refine ⟨⟨c, rest, rfl, hc⟩, ?_⟩
      intro d hd
      rcases mem_cons.mp hd with rfl | hd
      · exact isAllowed_of_start hc
      · exact hrest d hd
    · rintro ⟨⟨c', rest', heq, hc⟩, hall⟩
      cases heq
      exact ⟨hc, fun d hd => hall d (mem_cons_of_mem _ hd)⟩

/-- After the start is fixed, the name is an identifier. -/
theorem isValidIdentifier_fixStart (hne : s ≠ []) (hall : ∀ c ∈ s, isAllowed c = true) :
    isValidIdentifier (fixStart s) = true := by
  cases s with
  | nil => exact absurd rfl hne
  | cons c rest =>
    rw [fixStart]
    split
    · rw [isValidIdentifier]
      simpa using hall
    · rename_i hstart
      refine isValidIdentifier_iff.mpr ⟨⟨c, rest, rfl, ?_⟩, hall⟩
      simpa [and_eq_true, imp_iff_not_or] using hstart

theorem fixStart_of_isValidIdentifier (h : isValidIdentifier s = true) : fixStart s = s := by
  obtain ⟨⟨c, rest, rfl, hc⟩, -⟩ := isValidIdentifier_iff.mp h
  rw [fixStart, if_neg]
  simpa [imp_iff_not_or] using hc

/-- A nonempty beginning of an identifier is one, and so is an identifier with allowed
characters behind it. -/
theorem isValidIdentifier_prefix {t : Name} (h : isValidIdentifier t = true) (hs : s <+: t)
    (hne : s ≠ []) : isValidIdentifier s = true := by
  obtain ⟨⟨c, rest, rfl, hc⟩, hall⟩ := isValidIdentifier_iff.mp h
  cases s with
  | nil => exact absurd rfl hne
  | cons d s =>
    obtain ⟨rfl, -⟩ := cons_prefix_cons.mp hs
    exact isValidIdentifier_iff.mpr ⟨⟨d, s, rfl, hc⟩, fun e he => hall e (hs.subset he)⟩

theorem isValidIdentifier_append {t : Name} (h : isValidIdentifier s = true)
    (ht : ∀ c ∈ t, isAllowed c = true) : isValidIdentifier (s ++ t) = true := by
  obtain ⟨⟨c, rest, rfl, hc⟩, hall⟩ := isValidIdentifier_iff.mp h
  refine isValidIdentifier_iff.mpr ⟨⟨c, rest ++ t, rfl, hc⟩, ?_⟩
  intro d hd
  rcases mem_append.mp hd with hd | hd
  · exact hall d hd
  · exact ht d hd

/-! ### Calls that reach no unchecked name -/

/-- The name with its disallowed characters replaced. -/
def cleaned (reservedNames : List Name) (name : Name) : Name :=
  if name.isEmpty then []
  else fixStart ((avoidReserved reservedNames name).map replaceDisallowed)

theorem isValidIdentifier_cleaned (reservedNames : List Name) (h : name ≠ []) :
    isValidIdentifier (cleaned reservedNames name) = true := by
  obtain ⟨k, hk, -⟩ := avoidReserved_spec reservedNames name
  rw [cleaned, if_neg (by simpa using h)]
  refine isValidIdentifier_fixStart (by simp [hk, h]) ?_
  intro c hc
  obtain ⟨d, -, rfl⟩ := mem_map.mp hc
  exact isAllowed_replaceDisallowed d

variable {reservedNames : List Name} {t : PrefixTracker}

/-- A name that needs no replacement is not reserved after the underscores are put before it. -/
theorem cleaned_not_reserved (h : isValidIdentifier name = true) :
    cleaned reservedNames name ∉ reservedNames := by
  obtain ⟨k, hk, hfresh⟩ := avoidReserved_spec reservedNames name
  obtain ⟨⟨c, rest, rfl, hc⟩, hall⟩ := isValidIdentifier_iff.mp h
  have hvalid : isValidIdentifier (replicate k '_' ++ c :: rest) = true := by
    cases k with
    | zero => exact h
    | succ k =>
      refine isValidIdentifier_iff.mpr ⟨⟨'_', _, rfl, rfl⟩, ?_⟩
      intro d hd
      rcases mem_append.mp hd with hd | hd
      · rw [eq_of_mem_replicate hd]
        rfl
      · exact hall d hd
  have hmap : (replicate k '_' ++ c :: rest).map replaceDisallowed =
      replicate k '_' ++ c :: rest := by
    conv_rhs => rw [← map_id (replicate k '_' ++ c :: rest)]
    exact map_congr_left fun d hd =>
      replaceDisallowed_of_isAllowed ((isValidIdentifier_iff.mp hvalid).2 d hd)
  rw [cleaned, if_neg (by simp), hk, hmap, fixStart_of_isValidIdentifier hvalid]
  exact hfresh

/-- Nothing is missed by the loop that replaces characters when those that it does not reach
are allowed. -/
theorem sanitizeName_eq_cleaned
    (h : ∀ c ∈ (avoidReserved reservedNames name).drop name.length, isAllowed c = true) :
    sanitizeName reservedNames name = cleaned reservedNames name := by
  have hdrop : ((avoidReserved reservedNames name).drop name.length).map replaceDisallowed =
      (avoidReserved reservedNames name).drop name.length := by
    conv_rhs => rw [← map_id ((avoidReserved reservedNames name).drop name.length)]
    exact map_congr_left fun d hd => replaceDisallowed_of_isAllowed (h d hd)
  unfold sanitizeName cleaned
  split
  · rfl
  · simp only
    rw [← hdrop, ← map_append, take_append_drop]

variable (simpleAtoi)

/-- The root and the number of a name. -/
def parts (u : NameUniquer) (name : Name) : Name × Option Int :=
  let (stripped, suffix) :=
    stripNumericSuffix simpleAtoi u.separator (cleaned u.reservedNames name)
  (orGeneric stripped, suffix)

/-- Whether a call is answered with a number behind the root. -/
def IsNumbered (u : NameUniquer) (name : Name) : Prop :=
  (u.parts simpleAtoi name).2 ≠ none ∨
    (u.generatedNames (u.parts simpleAtoi name).1).barePrefixTaken = true

/-- The condition on a call and the state before it. The name may be reserved only in its
own spelling: neither the replacement of characters, nor the generic name, nor a number leads
to a reserved name, and the loop that replaces characters misses none. -/
structure Meets (u : NameUniquer) (name : Name) : Prop where
  reached : ∀ c ∈ (avoidReserved u.reservedNames name).drop name.length, isAllowed c = true
  bare : ¬u.IsNumbered simpleAtoi name →
    isValidIdentifier name = true ∨ (u.parts simpleAtoi name).1 ∉ u.reservedNames
  numbered : u.IsNumbered simpleAtoi name →
    ∀ i, (u.parts simpleAtoi name).1 ++ u.separator ++ decimal i ∉ u.reservedNames
  room : ((u.generatedNames (u.parts simpleAtoi name).1).generator.used.length : Int) + 2 < int64End

/-- Every call of a sequence meets the condition in the state before it. -/
def AllMeet (u : NameUniquer) : List Name → Prop
  | [] => True
  | name :: rest => u.Meets simpleAtoi name ∧
      ∀ result u', getSanitizedUniqueName simpleAtoi u name = .ok (result, u') → u'.AllMeet rest

/-- The calls return, the names are different, each is an identifier and none is reserved. -/
def ReturnsFreshNames (u : NameUniquer) (calls : List Name) : Prop :=
  ∃ names, getNames simpleAtoi u calls = .ok names ∧ names.Nodup ∧
    ∀ n ∈ names, isValidIdentifier n = true ∧ n ∉ u.reservedNames

/-! ### One call -/

/-- A name is recorded when another call with it would not return it. -/
def Recorded (u : NameUniquer) (name : Name) : Prop :=
  match stripNumericSuffix simpleAtoi u.separator name with
  | (root, none) => (u.generatedNames root).barePrefixTaken = true
  | (root, some id) => id ∈ (u.generatedNames root).generator.used

/-- Every generator is in order. -/
def Valid (u : NameUniquer) : Prop := ∀ root, (u.generatedNames root).generator.Valid

/-- What a call does: the name it returns was not recorded and now is. -/
structure Records (u : NameUniquer) (result : Name) (u' : NameUniquer) : Prop where
  valid : u'.Valid
  separator : u'.separator = u.separator
  reservedNames : u'.reservedNames = u.reservedNames
  fresh : ¬u.Recorded simpleAtoi result
  recorded : u'.Recorded simpleAtoi result
  keeps : ∀ m, u.Recorded simpleAtoi m → u'.Recorded simpleAtoi m
  identifier : isValidIdentifier result = true
  unreserved : result ∉ u.reservedNames

variable {simpleAtoi} {u : NameUniquer}

/-- A tracker that has at least what the old one had keeps every record. -/
theorem recorded_setTracker
    (hbare : (u.generatedNames root).barePrefixTaken = true → t.barePrefixTaken = true)
    (hused : ∀ id ∈ (u.generatedNames root).generator.used, id ∈ t.generator.used) (m : Name)
    (h : u.Recorded simpleAtoi m) : (u.setTracker root t).Recorded simpleAtoi m := by
  unfold Recorded at h ⊢
  simp only [setTracker] at h ⊢
  split at h
  · rename_i r _
    by_cases hr : r = root
    · subst hr
      simpa using hbare h
    · simpa [Function.update_of_ne hr] using h
  · rename_i r id _
    by_cases hr : r = root
    · subst hr
      simpa using hused id h
    · simpa [Function.update_of_ne hr] using h

theorem valid_setTracker (hu : u.Valid) (ht : t.generator.Valid) : (u.setTracker root t).Valid := by
  intro r
  by_cases hr : r = root
  · subst hr
    simpa [setTracker] using ht
  · simpa [setTracker, Function.update_of_ne hr] using hu r

section

variable (atoi : SimpleAtoiSpec simpleAtoi) (hsep : u.separator = replicate (k + 1) '_')
include atoi hsep

theorem recorded_numbered (root : Name) {id : Int} (hlow : 0 ≤ id) (hhigh : id < int64End) :
    u.Recorded simpleAtoi (root ++ u.separator ++ decimal id) ↔
      id ∈ (u.generatedNames root).generator.used := by
  have hstrip := stripNumericSuffix_numbered atoi k root (i := id)
    (by unfold int64End; omega) hhigh
  simp only [Recorded, hsep, hstrip]

/-- A call that is answered with a number. -/
theorem numbered_records (hu : u.Valid) (hroot : isValidIdentifier root = true)
    (hunreserved : ∀ i, root ++ u.separator ++ decimal i ∉ u.reservedNames)
    (hroom : ((u.generatedNames root).generator.used.length : Int) + 2 < int64End) (hlow : 0 ≤ i)
    (hhigh : i < int64End) :
    ∃ result u', u.numbered root (·.registerId i) = .ok (result, u') ∧
      Records simpleAtoi u result u' := by
  obtain ⟨id, g', heq, hg', hused, hfresh, hid⟩ :=
    SequentialIdGenerator.registerId_spec (hu root) i hroom
  have hlow' : 0 ≤ id := by omega
  have hhigh' : id < int64End := by omega
  refine ⟨root ++ u.separator ++ decimal id, _, by simp only [numbered, heq]; rfl, ?_⟩
  constructor
  case valid => exact valid_setTracker hu hg'
  case separator => rfl
  case reservedNames => rfl
  case fresh => exact fun h => hfresh ((recorded_numbered atoi hsep root hlow' hhigh').mp h)
  case recorded =>
      refine (recorded_numbered (u := u.setTracker root _) atoi hsep root hlow' hhigh').mpr ?_
      simp [setTracker, hused]
  case keeps =>
      exact recorded_setTracker (fun h => h) fun j hj => by simp [hused, hj]
  case identifier =>
      refine isValidIdentifier_append (isValidIdentifier_append hroot ?_) ?_
      · intro c hc
        rw [hsep] at hc
        rw [eq_of_mem_replicate hc]
        rfl
      · exact fun c hc => isAllowed_of_isDigit (isDigit_of_mem_decimal hlow' hc)
  case unreserved => exact hunreserved id

end

/-- A call that is answered with the bare root. -/
theorem bare_records (hu : u.Valid) (hroot : isValidIdentifier root = true)
    (hunreserved : root ∉ u.reservedNames)
    (hstrip : stripNumericSuffix simpleAtoi u.separator root = (root, none))
    (hbare : (u.generatedNames root).barePrefixTaken = false) :
    Records simpleAtoi u root
      (u.setTracker root { u.generatedNames root with barePrefixTaken := true }) := by
  constructor
  case valid => exact valid_setTracker hu (hu root)
  case separator => rfl
  case reservedNames => rfl
  case fresh => simp [Recorded, hstrip, hbare]
  case recorded => simp [Recorded, setTracker, hstrip]
  case keeps => exact recorded_setTracker (fun _ => rfl) fun _ h => h
  case identifier => exact hroot
  case unreserved => exact hunreserved

/-- The root that a name is reduced to is an identifier. -/
theorem isValidIdentifier_parts (simpleAtoi : Name → Option Int) (u : NameUniquer) (name : Name) :
    isValidIdentifier (u.parts simpleAtoi name).1 = true := by
  simp only [parts, orGeneric]
  split
  · rfl
  · rename_i hne
    have hleads := stripNumericSuffix_fst simpleAtoi u.separator
      (cleaned u.reservedNames name)
    have hname : name ≠ [] := by
      rintro rfl
      simp [cleaned] at hleads
      simp [cleaned, hleads] at hne
    exact isValidIdentifier_prefix (isValidIdentifier_cleaned _ hname) hleads (by simpa using hne)

/-- The number in a name that has been cleaned is not negative. -/
theorem parts_suffix (atoi : SimpleAtoiSpec simpleAtoi) (h : (u.parts simpleAtoi name).2 = some i) :
    0 ≤ i ∧ i < int64End := by
  obtain ⟨j, hj⟩ := stripNumericSuffix_some (show (stripNumericSuffix simpleAtoi u.separator
    (cleaned u.reservedNames name)).2 = some i from h)
  refine ⟨atoi.nonneg _ _ hj ?_, (atoi.in_range _ _ hj).2⟩
  intro hmem
  have hmem' := mem_of_mem_drop hmem
  by_cases hname : name = []
  · subst hname
    simp [cleaned] at hmem'
  · have hall := (isValidIdentifier_iff.mp (isValidIdentifier_cleaned u.reservedNames hname)).2
    exact absurd (hall _ hmem') (by decide)

/-- A root without a number has none when it is taken apart again. -/
theorem stripNumericSuffix_parts (hsep : u.separator = replicate (k + 1) '_')
    (h : (u.parts simpleAtoi name).2 = none) :
    stripNumericSuffix simpleAtoi u.separator (u.parts simpleAtoi name).1 =
      ((u.parts simpleAtoi name).1, none) := by
  have hnone : (stripNumericSuffix simpleAtoi u.separator (cleaned u.reservedNames name)).2 =
      none :=
    h
  have hfst := stripNumericSuffix_none hnone
  simp only [parts, orGeneric, hfst]
  split
  · have hfind : rfind u.separator ['n', 'a', 'm', 'e'] = none := by
      rw [hsep]
      exact rfind_none (by simp)
    simp [stripNumericSuffix, hfind]
  · exact Prod.ext hfst hnone

/-- A call that meets the condition returns a new identifier that is not reserved. -/
theorem getSanitizedUniqueName_records (atoi : SimpleAtoiSpec simpleAtoi)
    (hsep : u.separator = replicate (k + 1) '_') (hu : u.Valid) (h : u.Meets simpleAtoi name) :
    ∃ result u', getSanitizedUniqueName simpleAtoi u name = .ok (result, u') ∧
      Records simpleAtoi u result u' := by
  have hroot := isValidIdentifier_parts simpleAtoi u name
  have hcall : getSanitizedUniqueName simpleAtoi u name =
      match (u.parts simpleAtoi name).2 with
      | some i => u.numbered (u.parts simpleAtoi name).1 (·.registerId i)
      | none =>
        if (u.generatedNames (u.parts simpleAtoi name).1).barePrefixTaken then
          u.numbered (u.parts simpleAtoi name).1 (·.nextId)
        else .ok ((u.parts simpleAtoi name).1, u.setTracker (u.parts simpleAtoi name).1
          { u.generatedNames (u.parts simpleAtoi name).1 with barePrefixTaken := true }) := by
    simp only [getSanitizedUniqueName, sanitizeName_eq_cleaned h.reached]
    rfl
  rw [hcall]
  cases hsuffix : (u.parts simpleAtoi name).2 with
  | some i =>
    have hnumbered : u.IsNumbered simpleAtoi name := .inl (by simp [hsuffix])
    obtain ⟨hlow, hhigh⟩ := parts_suffix atoi hsuffix
    exact numbered_records atoi hsep hu hroot (h.numbered hnumbered) h.room hlow hhigh
  | none =>
    cases hbare : (u.generatedNames (u.parts simpleAtoi name).1).barePrefixTaken with
    | true =>
      have hg := hu (u.parts simpleAtoi name).1
      have hpos := hg.pos
      exact numbered_records atoi hsep hu hroot (h.numbered (.inr hbare)) h.room (by omega)
        hg.bound
    | false =>
      have hnot : ¬u.IsNumbered simpleAtoi name := by simp [IsNumbered, hsuffix, hbare]
      refine ⟨_, _, rfl, bare_records hu hroot ?_ (stripNumericSuffix_parts hsep hsuffix) hbare⟩
      refine (h.bare hnot).elim (fun hvalid => ?_) (fun hres => hres)
      have hclean : (u.parts simpleAtoi name).1 = cleaned u.reservedNames name := by
        have hne : cleaned u.reservedNames name ≠ [] := by
          have hname : name ≠ [] := by
            rintro rfl
            cases hvalid
          obtain ⟨⟨c, rest, heq, -⟩, -⟩ := isValidIdentifier_iff.mp
            (isValidIdentifier_cleaned u.reservedNames hname)
          simp [heq]
        simp [parts, stripNumericSuffix_none (show (stripNumericSuffix simpleAtoi u.separator
          (cleaned u.reservedNames name)).2 = none from hsuffix), orGeneric, hne]
      rw [hclean]
      exact cleaned_not_reserved hvalid

/-! ### A sequence of calls -/

/-- Calls that meet the condition return names that are different from one another and from
those on record. -/
theorem getNames_fresh (atoi : SimpleAtoiSpec simpleAtoi) (calls : List Name) {u : NameUniquer}
    (hsep : u.separator = replicate (k + 1) '_') (hu : u.Valid) (h : u.AllMeet simpleAtoi calls) :
    ∃ names, getNames simpleAtoi u calls = .ok names ∧ names.Nodup ∧
      ∀ n ∈ names, ¬u.Recorded simpleAtoi n ∧ isValidIdentifier n = true ∧ n ∉ u.reservedNames := by
  -- The names of the later calls are not on record after the first one, whose name is.
  induction calls generalizing u with
  | nil => exact ⟨[], rfl, nodup_nil, by simp⟩
  | cons name rest ih =>
    obtain ⟨hmeets, hrest⟩ := h
    obtain ⟨result, u', heq, hrec⟩ := getSanitizedUniqueName_records atoi hsep hu hmeets
    obtain ⟨names, hnames, hnodup, hall⟩ :=
      ih (hrec.separator.trans hsep) hrec.valid (hrest _ _ heq)
    refine ⟨result :: names, by simp [getNames, heq, hnames], ?_, ?_⟩
    · exact nodup_cons.mpr ⟨fun hmem => (hall _ hmem).1 hrec.recorded, hnodup⟩
    · intro n hn
      rcases mem_cons.mp hn with rfl | hn
      · exact ⟨hrec.fresh, hrec.identifier, hrec.unreserved⟩
      · obtain ⟨hfresh, hident, hres⟩ := hall n hn
        exact ⟨fun hr => hfresh (hrec.keeps n hr), hident, hrec.reservedNames ▸ hres⟩

/-- In every sequence of calls that each meet the condition in the state before them, the
names are different, each is an identifier, none is reserved and no `CHECK` fails. -/
theorem returnsFreshNames_of_allMeet (atoi : SimpleAtoiSpec simpleAtoi) (k : Nat)
    (reservedNames calls : List Name)
    (h : (create (replicate (k + 1) '_') reservedNames).AllMeet simpleAtoi calls) :
    (create (replicate (k + 1) '_') reservedNames).ReturnsFreshNames simpleAtoi calls := by
  obtain ⟨names, heq, hnodup, hall⟩ := getNames_fresh atoi calls rfl
    (fun root => SequentialIdGenerator.valid_default) h
  exact ⟨names, heq, hnodup, fun n hn => (hall n hn).2⟩

/-! ### A conversion that behaves as documented -/

/-- The white space of `absl::ascii_isspace`. -/
def isSpace (c : Char) : Bool := c == ' ' || (9 ≤ c.toNat && c.toNat ≤ 13)

/-- Digits, at least one. -/
def digitsValue (s : Name) : Option Int :=
  if !s.isEmpty && s.all Char.isDigit then some (ofDigitChars 10 s 0) else none

/-- A value in the range of `int64_t`. -/
def inRange (i : Int) : Option Int := if -int64End ≤ i ∧ i < int64End then some i else none

/-- A decimal integer, after an optional sign. -/
def signedValue : Name → Option Int
  | '-' :: s => (digitsValue s).bind fun n => inRange (-n)
  | '+' :: s => (digitsValue s).bind inRange
  | s => (digitsValue s).bind inRange

/-- The documented behaviour of `absl::SimpleAtoi`: white space around the number is
ignored. -/
def documentedAtoi (s : Name) : Option Int :=
  signedValue ((s.dropWhile isSpace).reverse.dropWhile isSpace).reverse

theorem digitsValue_toDigits (n : Nat) : digitsValue (toDigits 10 n) = some (n : Int) := by
  have hall : (toDigits 10 n).all Char.isDigit = true :=
    all_eq_true.mpr fun c hc => isDigit_of_mem_toDigits (by decide) (by decide) hc
  simp [digitsValue, hall, toDigits_ne_nil]

/-- The numbers in the range of `int64_t`. -/
theorem inRange_eq_some {j : Int} : inRange i = some j ↔ i = j ∧ -int64End ≤ j ∧ j < int64End := by
  unfold inRange
  split
  · simp only [Option.some.injEq]
    constructor
    · rintro rfl
      exact ⟨rfl, by assumption⟩
    · exact fun h => h.1
  · simp only [reduceCtorEq, false_iff]
    rintro ⟨rfl, h⟩
    contradiction

theorem digitsValue_nonneg (h : digitsValue s = some i) : 0 ≤ i := by
  unfold digitsValue at h
  split at h
  · cases h
    exact Int.natCast_nonneg _
  · cases h

theorem signedValue_in_range (h : signedValue s = some i) : -int64End ≤ i ∧ i < int64End := by
  unfold signedValue at h
  split at h <;>
  · obtain ⟨n, -, hn⟩ := Option.bind_eq_some_iff.mp h
    exact (inRange_eq_some.mp hn).2

theorem signedValue_nonneg (h : signedValue s = some i) (hs : '-' ∉ s) : 0 ≤ i := by
  unfold signedValue at h
  split at h
  · simp at hs
  all_goals
    obtain ⟨n, hn, hi⟩ := Option.bind_eq_some_iff.mp h
    rw [← (inRange_eq_some.mp hi).1]
    exact digitsValue_nonneg hn

/-- A number is printed without spaces. -/
theorem isSpace_of_mem_decimal (hc : c ∈ decimal i) : isSpace c = false := by
  have hdigit : ∀ d : Char, d.isDigit = true → isSpace d = false := by
    intro d hd
    have hval : 48 ≤ d.toNat := by
      simp only [Char.isDigit, and_eq_true, decide_eq_true_eq, ge_iff_le,
        UInt32.le_iff_toNat_le] at hd
      exact hd.1
    have hne : d ≠ ' ' := by
      rintro rfl
      cases hd
    simp only [isSpace, or_eq_false_iff, beq_eq_false_iff_ne, and_eq_false_iff,
      decide_eq_false_iff_not]
    exact ⟨hne, .inr (by omega)⟩
  unfold decimal at hc
  split at hc
  · rcases mem_cons.mp hc with rfl | hc
    · decide
    · exact hdigit c (isDigit_of_mem_toDigits (by decide) (by decide) hc)
  · exact hdigit c (isDigit_of_mem_toDigits (by decide) (by decide) hc)

theorem dropWhile_isSpace (h : ∀ c ∈ s, isSpace c = false) : s.dropWhile isSpace = s := by
  cases s with
  | nil => rfl
  | cons c s => simp [h c (by simp)]

theorem signedValue_digits (h : ∀ c ∈ s, c.isDigit = true) :
    signedValue s = (digitsValue s).bind inRange := by
  unfold signedValue
  split
  · cases h '-' (by simp)
  · cases h '+' (by simp)
  · rfl

/-- Reading what was printed gives the number again. -/
theorem documentedAtoi_decimal (hlow : -int64End ≤ i) (hhigh : i < int64End) :
    documentedAtoi (decimal i) = some i := by
  have hspace : ∀ c ∈ (decimal i).reverse, isSpace c = false := fun c hc =>
    isSpace_of_mem_decimal (mem_reverse.mp hc)
  rw [documentedAtoi, dropWhile_isSpace fun c hc => isSpace_of_mem_decimal hc,
    dropWhile_isSpace hspace, reverse_reverse]
  unfold decimal
  split
  · rw [signedValue, digitsValue_toDigits, Option.bind_some]
    exact inRange_eq_some.mpr ⟨by omega, hlow, hhigh⟩
  · rw [signedValue_digits fun c hc => isDigit_of_mem_toDigits (by decide) (by decide) hc,
      digitsValue_toDigits, Option.bind_some]
    exact inRange_eq_some.mpr ⟨by omega, hlow, hhigh⟩

/-- The documented behaviour is what the uniquer relies on. -/
theorem documentedAtoi_spec : SimpleAtoiSpec documentedAtoi where
  decimal := fun _ => documentedAtoi_decimal
  in_range := fun _ _ h => signedValue_in_range h
  nonneg := by
    intro s i h hs
    refine signedValue_nonneg h fun hmem => hs ?_
    have h1 := (dropWhile_suffix isSpace).subset (mem_reverse.mp hmem)
    exact (dropWhile_suffix isSpace).subset (mem_reverse.mp h1)

/-- Two calls with one name, and a reserved name that is spelled otherwise. -/
theorem returnsFreshNames_of_allMeet_foo :
    (create ['_', '_'] [['_', 'f']]).ReturnsFreshNames documentedAtoi [['f', 'o'], ['f', 'o']] := by
  have hnumbered : ∀ i, ['f', 'o'] ++ ['_', '_'] ++ decimal i ∉ [['_', 'f']] := by simp
  refine returnsFreshNames_of_allMeet documentedAtoi_spec 1 [['_', 'f']] [['f', 'o'], ['f', 'o']]
    ⟨⟨all_eq_true.mp rfl, fun _ => .inl rfl, fun _ => hnumbered, by decide⟩, ?_⟩
  intro result u' h
  have hfirst : getSanitizedUniqueName documentedAtoi (create ['_', '_'] [['_', 'f']]) ['f', 'o'] =
      .ok (['f', 'o'], (create ['_', '_'] [['_', 'f']]).setTracker ['f', 'o']
        { barePrefixTaken := true }) := rfl
  cases hfirst.symm.trans h
  exact ⟨⟨all_eq_true.mp rfl, fun _ => .inl rfl, fun _ => hnumbered, by decide⟩,
    fun _ _ _ => trivial⟩

/-- The replacement of a character leads to a reserved name. -/
theorem not_returnsFreshNames_always_comb :
    ¬(create ['_', '_'] ["always_comb".toList]).ReturnsFreshNames documentedAtoi
      ["always.comb".toList] := by
  rintro ⟨names, heq, -, hall⟩
  have hnames : getNames documentedAtoi (create ['_', '_'] ["always_comb".toList])
      ["always.comb".toList] = .ok ["always_comb".toList] := by decide
  cases hnames.symm.trans heq
  exact (hall _ (mem_singleton.mpr rfl)).2 (mem_singleton.mpr rfl)

end NameUniquer

end Xls

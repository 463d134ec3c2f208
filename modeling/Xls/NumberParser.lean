import Xls.BitsOps.Exact
import Xls.FormatStrings
import Xls.NameUniquer

/-!
# Xls.NumberParser

Numbers in text: the parser of `xls/ir/number_parser.cc` with `StrTo64Base`
(`xls/common/string_to_int.cc`), and the printer `BitsToString` of `xls/ir/bits_ops.cc`.

Strings are lists of characters, one for each byte. `absl::SimpleAtoi` is not part of the
repository and is a parameter, as in `Xls.NameUniquer`; here it converts single characters.
-/

namespace Xls.NumberParser

open BitsOps

/-! ### Digits -/

/-- The digit that a character stands for. -/
def digit? (base : Nat) (c : Char) : Option Nat :=
  let n := c.toNat
  if base = 16 then
    if 'a'.toNat ≤ n ∧ n ≤ 'f'.toNat then some (n - 'a'.toNat + 10)
    else if 'A'.toNat ≤ n ∧ n ≤ 'F'.toNat then some (n - 'A'.toNat + 10)
    else if '0'.toNat ≤ n ∧ n ≤ '9'.toNat then some (n - '0'.toNat)
    else none
  else if '0'.toNat ≤ n ∧ n - '0'.toNat < base then some (n - '0'.toNat) else none

/-- `char_to_digit`. -/
def charToDigit (base : Nat) (original : Name) (c : Char) : Result Nat :=
  if base = 2 ∨ base = 8 ∨ base = 10 ∨ base = 16 then
    match digit? base c with
    | some digit => .ok digit
    | none => .error (.status (s!"Number character '{c}' is invalid for numeric base {base} " ++
      s!"in \"{String.ofList original}\""))
  else .error .check

/-- The loop of `StrTo64Base`. -/
def accumulate (base : Nat) (original : Name) : Nat → Name → Result Nat
  | accum, [] => .ok accum
  | accum, c :: s => do
    let digit ← charToDigit base original c
    let accum := accum * base + digit
    if accum / 2 ^ 64 ≠ 0 then
      .error (.status s!"Number overflows 64-bit integer: \"{String.ofList original}\"")
    else accumulate base original accum s

/-- `absl::ConsumePrefix`: whether the text was there, and what remains. -/
def consumePrefix (text s : Name) : Bool × Name :=
  if text.isPrefixOf s then (true, s.drop text.length) else (false, s)

/-- The base that the text has, and what follows the prefix. -/
def detectBase (s : Name) : Nat × Name :=
  if ['0', 'b'].isPrefixOf s then (2, s.drop 2)
  else if ['0', 'x'].isPrefixOf s then (16, s.drop 2)
  else if ['0'].isPrefixOf s then (8, s.drop 1)
  else (10, s)

/-- With a base, its prefix is consumed. -/
def consumeBase (base : Nat) (s : Name) : Nat × Name :=
  if base = 0 then detectBase s
  else if base = 16 then (base, (consumePrefix ['0', 'x'] s).2)
  else if base = 8 then (base, (consumePrefix ['0'] s).2)
  else if base = 2 then (base, (consumePrefix ['0', 'b'] s).2)
  else (base, s)

/-- `StrTo64Base`, with the result as an `uint64_t`. -/
def strTo64Base (original : Name) (base : Nat) : Result Nat :=
  if original = ['0'] ∨ original = ['-', '0'] then .ok 0
  else
    let (negated, s) := consumePrefix ['-'] original
    let (base, s) := consumeBase base s
    if base < 2 then .error (.status "base >= 2")
    else if s.isEmpty then
      .error (.status s!"Number contained no digits: \"{String.ofList original}\"")
    else do
      let accum ← accumulate base original 0 s
      return if negated then u64 (-accum) else accum

/-! ### Unsigned numbers -/

/-- The number of bits without the leading zeros. -/
def significantBits (b : Bits) : Nat := (b.toBools.reverse.dropWhile (! ·)).length

/-- `DropLeadingZeroes`. -/
def dropLeadingZeroes (b : Bits) : Bits := b.slice 0 (significantBits b)

/-- `Bits::CountLeadingZeros`. -/
def countLeadingZeros (b : Bits) : Nat := (b.toBools.reverse.takeWhile (! ·)).length

variable (simpleAtoi : Name → Option Nat)

/-- The loop over the digits of a decimal number. -/
def parseDecimal (origString : Name) : Bits → Name → Result Bits
  | result, [] => .ok result
  | result, c :: numericString => do
    let result := result.umul (Bits.ofNat 8 10)
    match simpleAtoi [c] with
    | none => .error (.status
      s!"Could not convert {String.ofList origString} to 32-bit decimal number")
    | some magnitude => do
      let newChar ← uBits magnitude result.width
      parseDecimal origString (dropLeadingZeroes (result.add newChar)) numericString

/-- The pieces of `step` characters, from the left. -/
def chunks (step : Nat) : Nat → Name → List Name
  | 0, _ => []
  | _, [] => []
  | fuel + 1, c :: s => (c :: s).take step :: chunks step fuel ((c :: s).drop step)

/-- One piece of a binary or hexadecimal number. -/
def parseChunk (base baseBits : Nat) (baseName : String) (origString chunk : Name) : Result Bits :=
  match strTo64Base chunk base with
  | .ok value => uBits value (chunk.length * baseBits)
  | .error (.status message) =>
    .error (.status
      s!"Could not convert {String.ofList origString} to {baseName} number: {message}")
  | .error .check => .error .check

/-- The loop over the pieces. -/
def parseChunks (base baseBits : Nat) (baseName : String) (origString : Name) :
    List Name → Result (List Bits)
  | [] => .ok []
  | chunk :: rest => do
    let bits ← parseChunk base baseBits baseName origString chunk
    let more ← parseChunks base baseBits baseName origString rest
    return bits :: more

/-- `kMinimumBitCount`. -/
def minimumBitCount : Int := -1

/-- The width of the result: the least one, or the one that was asked for. -/
def fitTo (bitCount : Int) (unnarrowed : Bits) : Bits :=
  if bitCount = minimumBitCount then
    unnarrowed.slice 0 (unnarrowed.width - countLeadingZeros unnarrowed)
  else if (unnarrowed.width : Int) < bitCount then
    (Bits.zero (bitCount.toNat - unnarrowed.width)).append unnarrowed
  else unnarrowed.slice 0 bitCount.toNat

/-- The part of `ParseUnsignedNumberHelper` for binary and hexadecimal numbers. -/
def parseBased (base baseBits : Nat) (baseName : String) (origString numericString : Name)
    (bitCount : Int) : Result Bits := do
  let pieces := chunks (64 / baseBits) numericString.length numericString
  let parsed ← parseChunks base baseBits baseName origString pieces
  return fitTo bitCount (Bits.concat parsed)

/-- `ParseUnsignedNumberHelper`. -/
def parseUnsignedNumberHelper (input : Name) (format : FormatPreference) (origString : Name)
    (bitCount : Int) : Result Bits :=
  let numericString := input.filter (· != '_')
  if format = .default then .error (.status "Cannot specify default format.")
  else if numericString.isEmpty then
    .error (.status s!"Could not convert {String.ofList origString} to a number")
  else
    match format with
    | .unsignedDecimal => parseDecimal simpleAtoi origString (Bits.zero 32) numericString
    | .binary => parseBased 2 1 "binary" origString numericString bitCount
    | .hex => parseBased 16 4 "hexadecimal" origString numericString bitCount
    | _ => .error (.status "Invalid format")

/-- `ParseUnsignedNumberWithoutPrefix`. -/
def parseUnsignedNumberWithoutPrefix (input : Name) (format : FormatPreference) (bitCount : Int) :
    Result Bits :=
  parseUnsignedNumberHelper simpleAtoi input format input bitCount

/-! ### Signed numbers -/

/-- The text of a character with the format `%#x`. -/
def hexCode (c : Char) : String :=
  if c.toNat = 0 then "0" else "0x" ++ String.ofList (Nat.toDigits 16 c.toNat)

/-- The part of `GetSignAndMagnitude` after the sign. -/
def getMagnitude (input numericSubstring : Name) : Result Bits :=
  match numericSubstring with
  | '0' :: 'b' :: rest => parseUnsignedNumberHelper simpleAtoi rest .binary input minimumBitCount
  | '0' :: 'x' :: rest => parseUnsignedNumberHelper simpleAtoi rest .hex input minimumBitCount
  | '0' :: baseChar :: _ =>
    .error (.status
      s!"Invalid numeric base {hexCode baseChar} = '{baseChar}'. Expected 'b' or 'x'.")
  | _ => parseUnsignedNumberHelper simpleAtoi numericSubstring .unsignedDecimal
    input minimumBitCount

/-- `GetSignAndMagnitude`. -/
def getSignAndMagnitude (input : Name) : Result (Bool × Bits) :=
  match input with
  | [] => .error (.status "Cannot parse empty string as a number.")
  | '-' :: rest => do
    let value ← getMagnitude simpleAtoi input rest
    return (true, value)
  | _ => do
    let value ← getMagnitude simpleAtoi input input
    return (false, value)

/-- The loop that counts the leading ones. -/
def leadingOnes (b : Bits) : Nat := (b.toBools.reverse.takeWhile id).length

/-- `ParseNumber`. -/
def parseNumber (input : Name) : Result Bits := do
  let (isNegative, magnitude) ← getSignAndMagnitude simpleAtoi input
  if isNegative && !magnitude.isZero then
    let result := (magnitude.zeroExtend (magnitude.width + 1)).negate
    if leadingOnes result = 0 then .error (.status "leading_ones > 0")
    else return result.slice 0 (result.width - leadingOnes result + 1)
  else return magnitude

/-- `ParseNumberAsUint64`. -/
def parseNumberAsUint64 (input : Name) : Result Nat := do
  let (isNegative, magnitude) ← getSignAndMagnitude simpleAtoi input
  if (isNegative && !magnitude.isZero) || decide (64 < magnitude.width) then
    .error (.status s!"Value is not representable as an uint64_t: {String.ofList input}")
  else toUint64 magnitude

/-- `ParseNumberAsInt64`. -/
def parseNumberAsInt64 (input : Name) : Result Int := do
  let (isNegative, magnitude) ← getSignAndMagnitude simpleAtoi input
  let notRepresentable :=
    .error (.status s!"Value is not representable as an int64_t: {String.ofList input}")
  if !isNegative then
    if 63 < magnitude.width then notRepresentable else toInt64 (magnitude.zeroExtend 64)
  else if 64 ≤ magnitude.width then
    if magnitude.width = 64 ∧ magnitude.msb = true ∧ magnitude.popCount = 1 then .ok (-2 ^ 63)
    else notRepresentable
  else toInt64 (magnitude.zeroExtend 64).negate

/-- `ParseNumberAsBool`. `Bits::Get` of a bit that is not there is undefined. -/
def parseNumberAsBool (input : Name) : Result Bool :=
  if input = ['t', 'r', 'u', 'e'] then .ok true
  else if input = ['f', 'a', 'l', 's', 'e'] then .ok false
  else do
    let (isNegative, magnitude) ← getSignAndMagnitude simpleAtoi input
    if isNegative || decide (1 < magnitude.width) then
      .error (.status s!"Value is not representable as a bool: {String.ofList input}")
    else do
      checkThat (decide (0 < magnitude.width))
      return magnitude.get 0

end Xls.NumberParser

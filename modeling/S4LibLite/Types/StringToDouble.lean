import S4LibLite.Common.NumberComma
import S4LibLite.Types.Convertors
import S4LibLite.Types.Strtod

/-!
# From text to a double (`double-conversion.cc`, `s4convertors.h`, `s4convertors.cpp`)

`StringToIeee` has no flags set: no spaces, no junk behind the number, no hexadecimal or octal
numbers. It copies the digits, without the zeros in front of them and without more of them than a
double can depend on, and gives them to `Strtod` with the exponent of the last one.
`DoubleConvertor::convert` lets only digits around a point through to it.

There is no result where an `int` overflows. Counts of characters do not: the length is an `int`.
-/

namespace S4LibLite

/-- `Double::NaN()` and `quiet_NaN()`. -/
def Double.nan : Double := .ofBits 0x7FF8000000000000

/-- `sign ? -converted : converted`. -/
def Double.withSign (sign : Bool) (converted : Double) : Double :=
  if sign then converted.neg else converted

/-- `v != v`. -/
def Double.isNan (v : Double) : Bool := v.isSpecial && decide (v.d64 % 2 ^ 52 ≠ 0)

namespace StringToDoubleConverter

/-- `kMaxSignificantDigits`. -/
def kMaxSignificantDigits : ℕ := 772

/-- `isWhitespace`, of a character below 128. -/
def isWhitespace (c : UInt8) : Bool := [32, 13, 10, 9, 11, 12].contains c

/-- The digits that are read and what goes with them; `significant_digits` is the length of
`buffer`. -/
structure Reading where
  buffer : Bytes
  exponent : ℤ
  insignificantDigits : ℕ
  nonzeroDigitDropped : Bool
deriving DecidableEq

/-- Nothing is read. -/
def Reading.start : Reading := ⟨[], 0, 0, false⟩

/-- A digit of the integer part. -/
def Reading.integerDigit (r : Reading) (c : UInt8) : Reading :=
  if r.buffer.length < kMaxSignificantDigits then { r with buffer := r.buffer ++ [c] }
  else { r with
    insignificantDigits := r.insignificantDigits + 1
    nonzeroDigitDropped := r.nonzeroDigitDropped || c != 48 }

/-- A digit of the fractional part. -/
def Reading.fractionDigit (r : Reading) (c : UInt8) : Reading :=
  if r.buffer.length < kMaxSignificantDigits then
    { r with buffer := r.buffer ++ [c], exponent := r.exponent - 1 }
  else { r with nonzeroDigitDropped := r.nonzeroDigitDropped || c != 48 }

/-- From `parsing_done` on, without the sign. -/
def Reading.converted (r : Reading) : Option Double := do
  let exponent ← inInt (r.exponent + r.insignificantDigits)
  if r.nonzeroDigitDropped then strtod (r.buffer ++ [49]) (← inInt (exponent - 1))
  else strtod r.buffer exponent

/-- From `parsing_done` on. -/
def Reading.signed (sign : Bool) (r : Reading) : Option (Option Double) :=
  r.converted.map fun converted => some (converted.withSign sign)

/-- `max_exponent`. -/
def maxExponent : ℕ := (2 ^ 31 - 1) / 2

/-- A digit of the exponent. -/
def exponentDigit (num : ℕ) (c : UInt8) : ℕ :=
  if num ≥ maxExponent / 10 ∧ ¬ (num = maxExponent / 10 ∧ digitVal c ≤ maxExponent % 10) then
    maxExponent
  else num * 10 + digitVal c

/-- `junk_string_value_` and `empty_string_value_`, with no characters processed. -/
def junk : Option (Option Double) := some none

/-- The exponent part, where `s` is not empty; nothing may follow it. -/
def readExponentPart (sign leadingZero : Bool) (r : Reading) (s : Bytes) :
    Option (Option Double) :=
  if leadingZero = false ∧ r.exponent = 0 ∧ r.buffer = [] then junk
  else if s.head? = some 101 ∨ s.head? = some 69 then
    let s := s.tail
    let negative := decide (s.head? = some 45)
    let s := if s.head? = some 43 ∨ s.head? = some 45 then s.tail else s
    let num := (s.takeWhile isDigit).foldl exponentDigit 0
    if s.takeWhile isDigit = [] then junk
    else do
      let exponent ← inInt (r.exponent + (if negative then -(num : ℤ) else num))
      if s.dropWhile isDigit ≠ [] then junk else Reading.signed sign { r with exponent }
  else junk

/-- What follows the digits of the integer part. -/
def readFraction (sign leadingZero : Bool) (r : Reading) (s : Bytes) : Option (Option Double) :=
  if s = [] then r.signed sign
  else if s.head? = some 46 then
    let s := s.tail
    if s = [] then
      if r.buffer = [] ∧ leadingZero = false then junk else r.signed sign
    else
      let zeros := if r.buffer = [] then s.takeWhile (· == 48) else []
      let s := if r.buffer = [] then s.dropWhile (· == 48) else s
      if r.buffer = [] ∧ s = [] then some (some ((Double.ofBits 0).withSign sign))
      else
        let r := (s.takeWhile isDigit).foldl Reading.fractionDigit
          { r with exponent := r.exponent - zeros.length }
        let s := s.dropWhile isDigit
        if s = [] then r.signed sign
        else readExponentPart sign leadingZero r s
  else readExponentPart sign leadingZero r s

/-- From behind the sign on. -/
def readUnsigned (sign : Bool) (s : Bytes) : Option (Option Double) :=
  if s.head? = some 73 then
    if s = lit "INF" then some (some (Double.infinity.withSign sign)) else junk
  else if s.head? = some 78 then
    if s = lit "NAN" then some (some (Double.nan.withSign sign)) else junk
  else
    let leadingZero := s.head? == some 48
    let s := s.dropWhile (· == 48)
    if leadingZero ∧ s = [] then some (some ((Double.ofBits 0).withSign sign))
    else readFraction sign leadingZero ((s.takeWhile isDigit).foldl Reading.integerDigit .start)
      (s.dropWhile isDigit)

/-- `StringToIeee`: the double, where all characters are processed, or junk. -/
def stringToIeee (input : Bytes) : Option (Option Double) :=
  let signed := decide (input.head? = some 43 ∨ input.head? = some 45)
  let s := if signed then input.tail else input
  if s = [] then junk
  else if signed ∧ s.head?.any isWhitespace then junk
  else readUnsigned (decide (input.head? = some 45)) s

end StringToDoubleConverter

namespace DoubleConvertor

/-- The double and `processed_chars`. -/
def processed (size : ℤ) : Option Double → Double × ℤ
  | some v => (v, size)
  | none => (.nan, 0)

/-- `fast_strtod`. A negative size ends in front of the text. -/
def fastStrtod (buffer : Bytes) (size : ℤ) : Option (Double × ℤ) :=
  if size < 0 then none
  else (StringToDoubleConverter.stringToIeee (buffer.take size.toNat)).map (processed size)

/-- The checks in front of `fast_strtod`, of what stands in front of the first NUL. -/
def hasDigits (s : Bytes) : Bool :=
  let i := if s.head? = some 45 then s.tail else s
  let rest := i.dropWhile isDigit
  -- a point is skipped, whether a digit follows or not
  let pointed := rest.head? == some 46
  let fraction := if pointed then rest.tail.takeWhile isDigit else []
  let rest := if pointed then rest.tail.dropWhile isDigit else rest
  rest.isEmpty && !((i.takeWhile isDigit).isEmpty && fraction.isEmpty)

/-- `DoubleConvertor::convert(value, result)`, of a string: the double, if it returns true. -/
def convertText (value : Bytes) : Option (Option Double) :=
  if hasDigits (cStr value) then
    let totalLength := (Int32.ofNat value.length).toInt
    (fastStrtod value totalLength).map fun val =>
      if val.2 ≠ totalLength ∨ val.1.isNan then none else some val.1
  else some none

/-- `DoubleConvertor::convert(value)`, of a string. -/
def convertTextOrThrow (value : Bytes) : Option (Except Exception Double) :=
  (convertText value).map fun converted =>
    match converted with
    | some result => .ok result
    | none => .error (fieldConvertError value)

end DoubleConvertor

end S4LibLite

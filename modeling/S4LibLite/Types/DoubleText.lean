import S4LibLite.Common.CStr
import Mathlib.Data.List.DropRight
import Mathlib.Data.Rat.Defs

/-!
# Doubles to text (`s4convertors.h`, `s4convertors.cpp`, `double-conversion.cc`)

`DoubleConvertor::convert` prints a double that is not close to zero in three steps: `ToPrecision`
lays out the digits that `DoubleToAscii` has found, `TrimTrailingZeros` shortens the fraction, and
a padding step puts zeros back. `DoubleToAscii` itself is taken for what it promises.

* `DoubleAscii`, what `DoubleToAscii` returns;
* `toPrecision`, `trimTrailingZeros`, `DoubleConvertor.convert`, the three steps;
* `readDecimal`, a text as a decimal number.
-/

namespace S4LibLite

/-- `DoubleConvertor::SIGNIFICANT_DIGITS`. -/
def significantDigits : ℕ := 15

/-- `DoubleConvertor::BUFFFER_SIZE`. -/
def bufferSize : ℕ := 32

/-- What `DoubleToAscii` returns for a finite value outside [-0.0001, 0.0001] and fifteen
significant digits: the value is `0.d₁…dₙ` times ten to the power of `decimalPoint`. -/
structure DoubleAscii where
  sign : Bool
  decimalRep : Bytes
  decimalPoint : ℤ
  isDigit_rep : ∀ c ∈ decimalRep, isDigit c = true
  rep_ne_nil : decimalRep ≠ []
  length_le : decimalRep.length ≤ significantDigits
  first_ne_zero : decimalRep.head? ≠ some 48
  point_ge : -3 ≤ decimalPoint
  point_le : decimalPoint ≤ 309

/-! ## Layout -/

/-- `AddPadding('0', count)`. -/
def addPadding (count : ℤ) : Bytes := List.replicate count.toNat 48

/-- The loop that prints an exponent, in front of what it has printed. -/
def exponentLoop (exponent : ℕ) (text : Bytes) : Bytes :=
  if 0 < exponent then exponentLoop (exponent / 10) (digitChar (exponent % 10) :: text)
  else text
termination_by exponent

/-- `CreateExponentialRepresentation`, without flags. -/
def createExponentialRepresentation (decimalDigits : Bytes) (exponent : ℤ) : Bytes :=
  decimalDigits.take 1
    ++ (if decimalDigits.length ≠ 1 then 46 :: decimalDigits.drop 1 else [])
    ++ 101 :: (if exponent < 0 then [45] else [])
    ++ if exponent = 0 then [48] else exponentLoop exponent.natAbs []

/-- `CreateDecimalRepresentation`, without flags. -/
def createDecimalRepresentation (decimalDigits : Bytes) (decimalPoint digitsAfterPoint : ℤ) :
    Bytes :=
  let length : ℤ := decimalDigits.length
  if decimalPoint ≤ 0 then
    48 :: if digitsAfterPoint > 0 then
      46 :: (addPadding (-decimalPoint) ++ decimalDigits
        ++ addPadding (digitsAfterPoint - -decimalPoint - length))
    else []
  else if decimalPoint ≥ length then
    decimalDigits ++ addPadding (decimalPoint - length)
      ++ if digitsAfterPoint > 0 then 46 :: addPadding digitsAfterPoint else []
  else
    decimalDigits.take decimalPoint.toNat
      ++ 46 :: (decimalDigits.drop decimalPoint.toNat
        ++ addPadding (digitsAfterPoint - (length - decimalPoint)))

/-- `ToPrecision`, for fifteen digits; `g_dtoa_converter` allows fourteen zeros in front of the
digits and none behind them. -/
def toPrecision (a : DoubleAscii) : Bytes :=
  (if a.sign then [45] else [])
    ++ if -a.decimalPoint + 1 > significantDigits - 1
        ∨ a.decimalPoint - significantDigits > 0 then
      createExponentialRepresentation
        (a.decimalRep ++ List.replicate (significantDigits - a.decimalRep.length) 48)
        (a.decimalPoint - 1)
    else
      createDecimalRepresentation a.decimalRep a.decimalPoint
        (max 0 (significantDigits - a.decimalPoint))

/-! ## Trimming -/

/-- The exponent's character. -/
def isPower (c : UInt8) : Bool := c == 101 || c == 69

/-- The body of the loop of `TrimTrailingZeros`, on a point: the zeros at the end go, or those in
front of the last `e`, and the point if it has come to the end. -/
def trimAt (dotPos : ℕ) (s : Bytes) : Bytes :=
  let behind := s.drop (dotPos + 1)
  let powPos :=
    if behind.any isPower then dotPos + (behind.rdropWhile fun c => !isPower c).length
    else s.length
  let trimmed := (s.take powPos).rdropWhile (· == 48)
  (if trimmed.getLast? = some 46 then trimmed.dropLast else trimmed) ++ s.drop powPos

/-- The loop of `TrimTrailingZeros`, from `dotPos` on. -/
def trimLoop : ℕ → ℕ → Bytes → Bytes
  | 0, _, s => s
  | steps + 1, dotPos, s =>
    trimLoop steps (dotPos + 1) (if s[dotPos]? = some 46 then trimAt dotPos s else s)

/-- `TrimTrailingZeros`; the text does not grow, so there are no more turns than characters. -/
def trimTrailingZeros (s : Bytes) : Bytes := trimLoop s.length 0 s

/-- `DoubleConvertor::fast_dtoa`. -/
def fastDtoa (a : DoubleAscii) : Bytes := trimTrailingZeros (toPrecision a)

/-! ## Padding -/

/-- The step under `if (padding > 0)`, where `s` stands in a `result` that is long enough. -/
def padded (padding : ℤ) (s : Bytes) : Bytes :=
  let point := (s.takeWhile (· ≠ 46)).length
  -- where there is no point, it is added at the end, and `end` points to it
  let last : ℤ := if point = s.length then point else s.length - 1
  let s := if point = s.length then s ++ [46] else s
  let needed := padding - (last - point)
  s ++ List.replicate needed.toNat 48

/-- The step under `if (padding > 0)`: there is nothing where `memset` leaves `result`. -/
def padZeros (padding : ℤ) (s : Bytes) : Option Bytes :=
  if (padded padding s).length ≤ bufferSize then some (padded padding s) else none

/-- `DoubleConvertor::convert(value, padding)`, where `value` is finite and outside
[-0.0001, 0.0001]. -/
def DoubleConvertor.convert (a : DoubleAscii) (padding : ℤ) : Option Bytes :=
  let result := fastDtoa a
  if result = [] then some []
  else if padding > 0 then padZeros padding result
  else some result

/-! ## Reading -/

/-- The parts of a decimal number. -/
structure DecimalText where
  negative : Bool
  whole : Bytes
  fraction : Bytes
  exponent : ℤ
deriving DecidableEq

/-- The exponent at the end of a number's text. -/
def readExponent : Bytes → Option ℤ
  | [] => some 0
  | c :: s =>
    let digits := (strtolSign s).2
    if isPower c ∧ digits ≠ [] ∧ digits.all isDigit then
      some (if (strtolSign s).1 then -(decVal digits : ℤ) else decVal digits)
    else none

/-- A text as a decimal number: an optional minus sign, digits, an optional fraction and an
optional exponent. -/
def readDecimal (s : Bytes) : Option DecimalText :=
  let negative := decide (s.head? = some 45)
  let s := if negative then s.tail else s
  let whole := s.takeWhile isDigit
  let s := s.dropWhile isDigit
  let pointed := decide (s.head? = some 46)
  let fraction := if pointed then s.tail.takeWhile isDigit else []
  let s := if pointed then s.tail.dropWhile isDigit else s
  if whole = [] then none
  else (readExponent s).map fun exponent => ⟨negative, whole, fraction, exponent⟩

/-- The number that digits around a point denote. -/
def partsValue (whole fraction : Bytes) (exponent : ℤ) : ℚ :=
  decVal (whole ++ fraction) * (10 : ℚ) ^ (exponent - fraction.length)

/-- The number a text denotes. -/
def DecimalText.value (n : DecimalText) : ℚ :=
  (if n.negative then -1 else 1) * partsValue n.whole n.fraction n.exponent

/-- The number that was given. -/
def DoubleAscii.value (a : DoubleAscii) : ℚ :=
  (if a.sign then -1 else 1)
    * (decVal a.decimalRep * (10 : ℚ) ^ (a.decimalPoint - a.decimalRep.length))

end S4LibLite

import S4LibLite.Types.BignumDtoa
import S4LibLite.Types.DoubleText
import S4LibLite.Types.FastDtoa
import S4LibLite.Types.FixedDtoa

/-!
# The converter of doubles (`double-conversion.cc`, `s4convertors.h`)

`DoubleToAscii` tries a fast way to find a double's digits and falls back on exact arithmetic.
`ToPrecision` and `ToFixed` lay the digits out, and `DoubleConvertor::convert` takes the one or the
other, depending on how close to zero the double is.

The converter is `g_dtoa_converter`: no flags, `INF` and `NAN`, fourteen zeros in front of the
digits and none behind them. The shortest modes, and no digits in the mode `PRECISION`, are left
out.
-/

namespace S4LibLite

/-- `IsInfinite`. -/
def Double.isInfinite (v : Double) : Bool := v.isSpecial && v.d64 % 2 ^ 52 == 0

/-- `value == 0`. -/
def Double.isZero (v : Double) : Bool := v.significand == 0

namespace DoubleToStringConverter

/-- `DtoaMode`. -/
inductive DtoaMode
  | fixed
  | precision
deriving DecidableEq

/-- `DtoaToBignumDtoaMode`. -/
def dtoaToBignumDtoaMode : DtoaMode → BignumDtoaMode
  | .fixed => .fixed
  | .precision => .precision

/-- `DoubleToAscii`: the sign, the digits and the decimal point. -/
def doubleToAscii (v : Double) (mode : DtoaMode) (requestedDigits : ℕ) : Bool × Bytes × ℤ :=
  let sign := v.isNegative
  let v := if sign then v.neg else v
  if v.isZero then (sign, [48], 1)
  else
    let fast :=
      match mode with
      | .fixed => fastFixedDtoa v requestedDigits
      | .precision => fastDtoaCounted v requestedDigits
    (sign, fast.getD (bignumDtoa v (dtoaToBignumDtoaMode mode) requestedDigits))

/-- `HandleSpecialValues`. -/
def handleSpecialValues (v : Double) : Bytes :=
  if v.isInfinite then (if v.isNegative then [45] else []) ++ lit "INF" else lit "NAN"

/-- `kMinPrecisionDigits`. -/
def kMinPrecisionDigits : ℕ := 1

/-- `kMaxPrecisionDigits`. -/
def kMaxPrecisionDigits : ℕ := 120

/-- `kMaxFixedDigitsAfterPoint`. -/
def kMaxFixedDigitsAfterPoint : ℕ := 60

/-- `kFirstNonFixed`, the double 1e60. -/
def kFirstNonFixed : Binary := Binary.ofRatio (10 ^ 60) 1

/-- `ToPrecision`. -/
def toPrecision (v : Double) (precision : ℕ) : Option Bytes :=
  if v.isSpecial then some (handleSpecialValues v)
  else if precision < kMinPrecisionDigits ∨ precision > kMaxPrecisionDigits then none
  else
    let ascii := doubleToAscii v .precision precision
    some ((if ascii.1 then [45] else [])
      ++ if -ascii.2.2 + 1 > significantDigits - 1 ∨ ascii.2.2 - precision > 0 then
        createExponentialRepresentation
          (ascii.2.1 ++ List.replicate (precision - ascii.2.1.length) 48) (ascii.2.2 - 1)
      else
        createDecimalRepresentation ascii.2.1 ascii.2.2 (max 0 (precision - ascii.2.2)))

/-- `ToFixed`. -/
def toFixed (v : Double) (requestedDigits : ℕ) : Option Bytes :=
  if v.isSpecial then some (handleSpecialValues v)
  else if requestedDigits > kMaxFixedDigitsAfterPoint then none
  else if v.value ≥ kFirstNonFixed.value ∨ v.value ≤ -kFirstNonFixed.value then none
  else
    let ascii := doubleToAscii v .fixed requestedDigits
    some ((if ascii.1 then [45] else [])
      ++ createDecimalRepresentation ascii.2.1 ascii.2.2 requestedDigits)

end DoubleToStringConverter

namespace DoubleConvertor

/-- The literal 0.0001. -/
def nearZero : Binary := Binary.ofRatio 1 (10 ^ 4)

/-- `value == 0 || value > 0.0001 || value < -0.0001`; nothing holds of what is no number. -/
def isFar (v : Double) : Bool :=
  if v.isSpecial then v.isInfinite else v.isZero || decide (nearZero.value < v.magnitude)

/-- `fast_dtoa`; the text is empty where the converter refuses. -/
def fastDtoa (v : Double) : Bytes :=
  ((DoubleToStringConverter.toPrecision v significantDigits).map trimTrailingZeros).getD []

/-- `fast_fixed_dtoa`. -/
def fastFixedDtoa (v : Double) : Bytes :=
  (DoubleToStringConverter.toFixed v significantDigits).getD []

/-- `while ((*end == '0') && (discard-- > 0))`. -/
def discardZeros : ℕ → Bytes → Bytes
  | 0, s => s
  | discard + 1, s => if s.getLast? = some 48 then discardZeros discard s.dropLast else s

/-- `convert(double value, int padding)`; nothing where the padding leaves the buffer. -/
def convertValue (v : Double) (padding : ℤ) : Option Bytes :=
  if isFar v then
    let result := fastDtoa v
    if result = [] then some []
    else if padding > 0 then padZeros padding result
    else some result
  else
    let result := fastFixedDtoa v
    if result = [] then some []
    else if padding > 0 then some (discardZeros (significantDigits - padding).toNat result)
    else some (result.rdropWhile (· == 48))

end DoubleConvertor

end S4LibLite

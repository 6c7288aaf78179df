import S4LibLite.Types.Bignum
import S4LibLite.Types.DigitBuffer
import S4LibLite.Types.Ieee

/-!
# Digits by exact arithmetic (`bignum-dtoa.cc`)

`BignumDtoa` writes a double as a quotient of two large numbers times a power of ten, brings the
quotient between one and ten, and divides digit by digit. Which power of ten it is, is estimated
from the binary exponent alone.

The modes modelled are `BIGNUM_DTOA_FIXED` and `BIGNUM_DTOA_PRECISION`; the boundaries of the
double, `delta_minus` and `delta_plus`, are zero in them. The arrays of the large numbers are left
out: as the source asserts, these numbers need fewer than `324 * 4` bits of theirs.
-/

namespace S4LibLite

/-- `NormalizedExponent`; a significand has at most fifty-three bits. -/
def normalizedExponent (significand : ℕ) (exponent : ℤ) : ℤ :=
  if 0 < significand ∧ significand < kHiddenBit then
    normalizedExponent (significand * 2) (exponent - 1)
  else exponent
termination_by kHiddenBit - significand

/-- `k1Log10`, the double 0.30102999566398114. -/
def k1Log10 : Binary := Binary.ofRatio 30102999566398114 (10 ^ 17)

/-- `EstimatePower`. -/
def estimatePower (exponent : ℤ) : ℤ :=
  (((Binary.ofInt (exponent + 53 - 1)).mul k1Log10).sub (Binary.ofRatio 1 (10 ^ 10))).ceil

open Bignum

/-- `InitialScaledStartValues`: the numerator and the denominator. -/
def initialScaledStartValues (significand : ℕ) (exponent estimatedPower : ℤ) : Bignum × Bignum :=
  if exponent ≥ 0 then
    ((assignUInt64 significand).shiftLeft exponent.toNat,
      assignPowerUInt16 10 estimatedPower.toNat)
  else if estimatedPower ≥ 0 then
    (assignUInt64 significand,
      (assignPowerUInt16 10 estimatedPower.toNat).shiftLeft (-exponent).toNat)
  else
    ((assignPowerUInt16 10 (-estimatedPower).toNat).multiplyByUInt64 significand,
      (assignUInt16 1).shiftLeft (-exponent).toNat)

/-- `FixupMultiply10`: the decimal point and the numerator. -/
def fixupMultiply10 (estimatedPower : ℤ) (isEven : Bool) (numerator denominator : Bignum) :
    ℤ × Bignum :=
  let inRange :=
    if isEven then decide (plusCompare numerator zero denominator ≥ 0)
    else decide (plusCompare numerator zero denominator > 0)
  if inRange then (estimatedPower + 1, numerator) else (estimatedPower, numerator.times10)

/-- The loop of `GenerateCountedDigits`: the digits and the numerator that is left. -/
def countedLoop (denominator : Bignum) : ℕ → Bignum → Bytes × Bignum
  | 0, numerator => ([], numerator)
  | count + 1, numerator =>
    let division := numerator.divideModuloIntBignum denominator
    let rest := countedLoop denominator count division.1.times10
    (digitChar division.2 :: rest.1, rest.2)

/-- `GenerateCountedDigits`: the digits and the decimal point. -/
def generateCountedDigits (count : ℕ) (decimalPoint : ℤ) (numerator denominator : Bignum) :
    Bytes × ℤ :=
  let counted := countedLoop denominator (count - 1) numerator
  let division := counted.2.divideModuloIntBignum denominator
  let digit :=
    if plusCompare division.1 division.1 denominator ≥ 0 then division.2 + 1 else division.2
  let carried := propagateCarry (counted.1 ++ [digitChar digit])
  (carried.1, decimalPoint + carried.2)

/-- `BignumToFixed`: the digits and the decimal point. -/
def bignumToFixed (requestedDigits : ℕ) (decimalPoint : ℤ) (numerator denominator : Bignum) :
    Bytes × ℤ :=
  if -decimalPoint > requestedDigits then ([], -requestedDigits)
  else if -decimalPoint = requestedDigits then
    if plusCompare numerator numerator denominator.times10 ≥ 0 then ([49], decimalPoint + 1)
    else ([], decimalPoint)
  else
    generateCountedDigits (decimalPoint + requestedDigits).toNat decimalPoint numerator denominator

/-- `BignumDtoaMode`, without the shortest modes. -/
inductive BignumDtoaMode
  | fixed
  | precision
deriving DecidableEq

/-- `BignumDtoa`: the digits and the decimal point. -/
def bignumDtoa (v : Double) (mode : BignumDtoaMode) (requestedDigits : ℕ) : Bytes × ℤ :=
  let estimatedPower := estimatePower (normalizedExponent v.significand v.exponent)
  if mode = .fixed ∧ -estimatedPower - 1 > requestedDigits then ([], -requestedDigits)
  else
    let start := initialScaledStartValues v.significand v.exponent estimatedPower
    let scaled := fixupMultiply10 estimatedPower (v.significand % 2 == 0) start.1 start.2
    match mode with
    | .fixed => bignumToFixed requestedDigits scaled.1 scaled.2 start.2
    | .precision => generateCountedDigits requestedDigits scaled.1 scaled.2 start.2

end S4LibLite

import S4LibLite.Types.DigitBuffer
import S4LibLite.Types.Ieee
import Mathlib.Data.List.DropRight

/-!
# Digits behind the point (`fixed-dtoa.cc`)

`FastFixedDtoa` writes a double with so many digits behind the point. What stands in front of the
point is an integer of up to seventy-three bits, cut at `10 ^ 17` where it needs more than
sixty-four. What stands behind it is a fraction with its binary point at a bit of sixty-four or of
a hundred and twenty-eight; instead of multiplying it by ten, it is multiplied by five and the point
moves.

The remainders by `2 ^ 32` and `2 ^ 64` stand where an integer of that width can wrap.
-/

namespace S4LibLite

/-! ## A hundred and twenty-eight bits -/

/-- `UInt128`. -/
structure UInt128 where
  highBits : ℕ
  lowBits : ℕ
deriving DecidableEq

namespace UInt128

/-- `Value == (high_bits_ << 64) + low_bits_`. -/
def value (a : UInt128) : ℕ := a.highBits * 2 ^ 64 + a.lowBits

/-- `Multiply`, thirty-two bits at a time. -/
def multiply (a : UInt128) (multiplicand : ℕ) : UInt128 :=
  let accumulator := a.lowBits % 2 ^ 32 * multiplicand
  let part := accumulator % 2 ^ 32
  let accumulator := accumulator / 2 ^ 32 + a.lowBits / 2 ^ 32 * multiplicand
  let lowBits := accumulator * 2 ^ 32 % 2 ^ 64 + part
  let accumulator := accumulator / 2 ^ 32 + a.highBits % 2 ^ 32 * multiplicand
  let part := accumulator % 2 ^ 32
  let accumulator := accumulator / 2 ^ 32 + a.highBits / 2 ^ 32 * multiplicand
  ⟨accumulator * 2 ^ 32 % 2 ^ 64 + part, lowBits⟩

/-- `Shift`; a positive amount shifts to the right. -/
def shift (a : UInt128) (shiftAmount : ℤ) : UInt128 :=
  let amount := shiftAmount.natAbs
  if shiftAmount = 0 then a
  else if shiftAmount = -64 then ⟨a.lowBits, 0⟩
  else if shiftAmount = 64 then ⟨0, a.highBits⟩
  else if shiftAmount ≤ 0 then
    ⟨(a.highBits * 2 ^ amount + a.lowBits / 2 ^ (64 - amount)) % 2 ^ 64,
      a.lowBits * 2 ^ amount % 2 ^ 64⟩
  else
    ⟨a.highBits / 2 ^ amount,
      (a.lowBits / 2 ^ amount + a.highBits * 2 ^ (64 - amount) % 2 ^ 64) % 2 ^ 64⟩

/-- `DivModPowerOf2`: the remainder and the quotient. -/
def divModPowerOf2 (a : UInt128) (power : ℕ) : UInt128 × ℕ :=
  if power ≥ 64 then
    let result := a.highBits / 2 ^ (power - 64)
    (⟨a.highBits - result * 2 ^ (power - 64), a.lowBits⟩, result)
  else
    let partLow := a.lowBits / 2 ^ power
    let partHigh := a.highBits * 2 ^ (64 - power) % 2 ^ 64
    (⟨0, a.lowBits - partLow * 2 ^ power⟩, partLow + partHigh)

/-- `IsZero`. -/
def isZero (a : UInt128) : Bool := a.highBits == 0 && a.lowBits == 0

/-- `BitAt`. -/
def bitAt (a : UInt128) (position : ℕ) : ℕ :=
  if position ≥ 64 then a.highBits / 2 ^ (position - 64) % 2 else a.lowBits / 2 ^ position % 2

end UInt128

/-! ## Integers -/

/-- `FillDigits32FixedLength`: what is appended. -/
def fillDigits32FixedLength : ℕ → ℕ → Bytes
  | _, 0 => []
  | number, requestedLength + 1 =>
    fillDigits32FixedLength (number / 10) requestedLength ++ [digitChar (number % 10)]

/-- The loop of `FillDigits32`: the digits in reverse order. -/
def reverseDigits (number : ℕ) : Bytes :=
  if number ≠ 0 then digitChar (number % 10) :: reverseDigits (number / 10) else []
termination_by number

/-- `FillDigits32`: what is appended; the second loop exchanges the digits. -/
def fillDigits32 (number : ℕ) : Bytes := (reverseDigits number).reverse

/-- `FillDigits64FixedLength`: what is appended. -/
def fillDigits64FixedLength (number : ℕ) : Bytes :=
  let part2 := number % 10 ^ 7
  let number := number / 10 ^ 7
  let part1 := number % 10 ^ 7
  let part0 := number / 10 ^ 7
  fillDigits32FixedLength (part0 % 2 ^ 32) 3 ++ fillDigits32FixedLength part1 7
    ++ fillDigits32FixedLength part2 7

/-- `FillDigits64`: what is appended. -/
def fillDigits64 (number : ℕ) : Bytes :=
  let part2 := number % 10 ^ 7
  let number := number / 10 ^ 7
  let part1 := number % 10 ^ 7
  let part0 := number / 10 ^ 7 % 2 ^ 32
  if part0 ≠ 0 then
    fillDigits32 part0 ++ fillDigits32FixedLength part1 7 ++ fillDigits32FixedLength part2 7
  else if part1 ≠ 0 then fillDigits32 part1 ++ fillDigits32FixedLength part2 7
  else fillDigits32 part2

/-! ## Fractions -/

/-- `RoundUp`: the buffer and the decimal point. -/
def roundUp (buffer : Bytes) (decimalPoint : ℤ) : Bytes × ℤ :=
  if buffer = [] then ([49], 1)
  else
    let carried := propagateCarry (buffer.dropLast ++ [buffer.getLastD 0 + 1])
    (carried.1, decimalPoint + carried.2)

/-- The loop over a fraction of sixty-four bits with its point at bit `point`: the digits, the
fraction and the point that are left. -/
def fraction64Loop : ℕ → ℕ → ℕ → Bytes × ℕ × ℕ
  | 0, fractionals, point => ([], fractionals, point)
  | fractionalCount + 1, fractionals, point =>
    if fractionals = 0 then ([], fractionals, point)
    else
      let fractionals := fractionals * 5 % 2 ^ 64
      let digit := fractionals / 2 ^ (point - 1)
      let rest :=
        fraction64Loop fractionalCount (fractionals - digit * 2 ^ (point - 1)) (point - 1)
      (digitChar digit :: rest.1, rest.2)

/-- The loop over a fraction of a hundred and twenty-eight bits. -/
def fraction128Loop : ℕ → UInt128 → ℕ → Bytes × UInt128 × ℕ
  | 0, fractionals, point => ([], fractionals, point)
  | fractionalCount + 1, fractionals, point =>
    if fractionals.isZero then ([], fractionals, point)
    else
      let division := (fractionals.multiply 5).divModPowerOf2 (point - 1)
      let rest := fraction128Loop fractionalCount division.1 (point - 1)
      (digitChar division.2 :: rest.1, rest.2)

/-- `FillFractionals`, with the decimal point behind what stands in the buffer. Where the last bit
has been used up, `point` is 0 and the source shifts a zero by `-1`, which is taken for the zero it
is with any count; the `point - 1` here is 0 then. -/
def fillFractionals (fractionals : ℕ) (exponent : ℤ) (fractionalCount : ℕ) (buffer : Bytes) :
    Bytes × ℤ :=
  if -exponent ≤ 64 then
    let rest := fraction64Loop fractionalCount fractionals (-exponent).toNat
    let filled := buffer ++ rest.1
    -- the first bit behind the point
    if rest.2.1 / 2 ^ (rest.2.2 - 1) % 2 = 1 then roundUp filled buffer.length
    else (filled, buffer.length)
  else
    let rest :=
      fraction128Loop fractionalCount ((UInt128.mk fractionals 0).shift (-exponent - 64)) 128
    let filled := buffer ++ rest.1
    if rest.2.1.bitAt (rest.2.2 - 1) = 1 then roundUp filled buffer.length
    else (filled, buffer.length)

/-- `TrimZeros`. -/
def trimZeros (buffer : Bytes) (decimalPoint : ℤ) : Bytes × ℤ :=
  let buffer := buffer.rdropWhile (· == 48)
  let trimmed := buffer.dropWhile (· == 48)
  (trimmed, decimalPoint - (buffer.length - trimmed.length : ℕ))

/-! ## The number -/

/-- `kFive17`, `5 ^ 17`. -/
def kFive17 : ℕ := 0xB1A2BC2EC5

/-- The digits of a number of more than sixty-four bits: quotient and remainder by `10 ^ 17`. -/
def fillDigits73 (significand exponent : ℕ) : Bytes :=
  if exponent > 17 then
    let dividend := significand * 2 ^ (exponent - 17)
    fillDigits32 (dividend / kFive17 % 2 ^ 32)
      ++ fillDigits64FixedLength (dividend % kFive17 * 2 ^ 17)
  else
    let divisor := kFive17 * 2 ^ (17 - exponent)
    fillDigits32 (significand / divisor % 2 ^ 32)
      ++ fillDigits64FixedLength (significand % divisor * 2 ^ exponent)

/-- The branches of `FastFixedDtoa`: the digits and the decimal point. -/
def fixedDigits (significand : ℕ) (exponent : ℤ) (fractionalCount : ℕ) : Bytes × ℤ :=
  if exponent + 53 > 64 then
    let buffer := fillDigits73 significand exponent.toNat
    (buffer, buffer.length)
  else if exponent ≥ 0 then
    let buffer := fillDigits64 (significand * 2 ^ exponent.toNat)
    (buffer, buffer.length)
  else if exponent > -53 then
    let integrals := significand / 2 ^ (-exponent).toNat
    let fractionals := significand - integrals * 2 ^ (-exponent).toNat
    fillFractionals fractionals exponent fractionalCount
      (if integrals > 0xFFFFFFFF then fillDigits64 integrals else fillDigits32 integrals)
  else if exponent < -128 then ([], -fractionalCount)
  else fillFractionals significand exponent fractionalCount []

/-- `FastFixedDtoa`: the digits and the decimal point, unless the number is too large or too many
digits are asked for. -/
def fastFixedDtoa (v : Double) (fractionalCount : ℕ) : Option (Bytes × ℤ) :=
  if v.exponent > 20 ∨ fractionalCount > 20 then none
  else
    let digits := fixedDigits v.significand v.exponent fractionalCount
    let trimmed := trimZeros digits.1 digits.2
    some (trimmed.1, if trimmed.1 = [] then -fractionalCount else trimmed.2)

end S4LibLite

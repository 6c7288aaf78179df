import S4LibLite.Types.BignumArray
import S4LibLite.Types.CachedPowers
import S4LibLite.Types.DigitBuffer
import S4LibLite.Types.Nearest

/-!
# From digits to a double (`strtod.cc`, `ieee.h`, `diy-fp.h`, `cached-powers.cc`, `bignum.cc`)

Zeros at both ends of the digits are cut off. Few digits and a small power of ten are multiplied in
doubles; else the digits are multiplied with a cached power of ten in sixty-four bits, and the error
is kept in eighths of the last place. Where it leaves the choice between two doubles open, the
digits are compared with the boundary between them in large numbers.

A `uint64_t` is a natural number: no sum and no product here reaches `2 ^ 64`, and `half_way` is
never smaller than `error`. There is no result where an `int` overflows, which only exponents and
lengths can do in front of the limits of `ComputeGuess`, or where a large number has no room in its
array. A double that is not negative stands for its number in `double` arithmetic, whose results are
the `nearest` doubles.
-/

namespace S4LibLite

/-! ## Doubles -/

namespace Double

/-- A double by its bits. -/
def ofBits (d64 : ℕ) : Double := ⟨d64 % 2 ^ 64, Nat.mod_lt _ (by norm_num)⟩

/-- The double next to a number that is not negative. -/
def ofRat (x : ℚ) : Double := ofBits (nearest x)

/-- `Infinity`. -/
def infinity : Double := ofBits kInfinity

/-- `NextDouble`. -/
def nextDouble (v : Double) : Double :=
  if v.d64 = kInfinity then infinity
  else if v.isNegative = true ∧ v.significand = 0 then ofBits 0
  else if v.isNegative = true then ofBits (v.d64 - 1)
  else ofBits (v.d64 + 1)

/-- `UpperBoundary`. -/
def upperBoundary (v : Double) : DiyFp := ⟨v.significand * 2 + 1, v.exponent - 1⟩

/-- `SignificandSizeForOrderOfMagnitude`. -/
def significandSizeForOrderOfMagnitude (order : ℤ) : ℤ :=
  if order ≥ kDenormalExponent + 53 then 53
  else if order ≤ kDenormalExponent then 0
  else order - kDenormalExponent

/-- `kMaxExponent`. -/
def kMaxExponent : ℤ := 0x7FF - 1075

/-- The first loop of `DiyFpToUint64`: bits that do not fit are dropped. -/
def dropLoop (significand : ℕ) (exponent : ℤ) : DiyFp :=
  if significand > 2 ^ 53 - 1 then dropLoop (significand / 2) (exponent + 1)
  else ⟨significand, exponent⟩
termination_by significand

/-- The second loop: the hidden bit is brought up as far as the exponent goes. -/
def raiseLoop (significand : ℕ) : ℕ → DiyFp
  | 0 => ⟨significand, kDenormalExponent⟩
  | steps + 1 =>
    if significand < kHiddenBit then raiseLoop (significand * 2) steps
    else ⟨significand, kDenormalExponent + (steps + 1)⟩

/-- `DiyFpToUint64`. -/
def diyFpToUint64 (w : DiyFp) : ℕ :=
  let w := dropLoop w.f w.e
  if w.e ≥ kMaxExponent then kInfinity
  else if w.e < kDenormalExponent then 0
  else
    let w := raiseLoop w.f (w.e - kDenormalExponent).toNat
    let biasedExponent := if w.e = kDenormalExponent ∧ w.f < kHiddenBit then 0 else w.e + 1075
    w.f % 2 ^ 52 + biasedExponent.toNat * 2 ^ 52

/-- `Double(diy_fp)`. -/
def ofDiyFp (w : DiyFp) : Double := ofBits (diyFpToUint64 w)

end Double

/-! ## Numbers of sixty-four bits -/

/-- A loop of `Normalize`: shifts by `step` while the `step` highest bits are zeros. -/
def DiyFp.shiftLoop (step : ℕ) (f : ℕ) (e : ℤ) : DiyFp :=
  if 0 < step ∧ 0 < f ∧ f < 2 ^ (64 - step) then shiftLoop step (f * 2 ^ step) (e - step)
  else ⟨f, e⟩
termination_by 2 ^ 64 - f
decreasing_by
  rename_i h
  have hlt : f < 2 ^ 64 := h.2.2.trans_le (Nat.pow_le_pow_right (by norm_num) (by omega))
  have hgrow : f * 1 < f * 2 ^ step :=
    Nat.mul_lt_mul_of_pos_left (Nat.one_lt_two_pow h.1.ne') h.2.1
  omega

/-- `Normalize`. -/
def DiyFp.normalize (w : DiyFp) : DiyFp :=
  let w := shiftLoop 10 w.f w.e
  shiftLoop 1 w.f w.e

/-- `GetCachedPowerForDecimalExponent`. -/
def getCachedPowerForDecimalExponent (requestedExponent : ℤ) : CachedPower :=
  kCachedPowers.getD ((requestedExponent + 348) / 8).toNat ⟨0, 0, 0⟩

/-- `kMaxExactDoubleIntegerDecimalDigits`. -/
def kMaxExactDoubleIntegerDecimalDigits : ℕ := 15

/-- `kMaxDecimalPower`. -/
def kMaxDecimalPower : ℤ := 309

/-- `kMinDecimalPower`. -/
def kMinDecimalPower : ℤ := -324

/-- `kMaxSignificantDecimalDigits`. -/
def kMaxSignificantDecimalDigits : ℕ := 780

/-! ## Cutting -/

/-- `CutToMaxSignificantDigits`. -/
def cutToMaxSignificantDigits (buffer : Bytes) (exponent : ℤ) : Option (Bytes × ℤ) :=
  (inInt (exponent + (buffer.length - kMaxSignificantDecimalDigits))).map fun exponent =>
    (buffer.take (kMaxSignificantDecimalDigits - 1) ++ [49], exponent)

/-- `TrimAndCut`. -/
def trimAndCut (buffer : Bytes) (exponent : ℤ) : Option (Bytes × ℤ) := do
  let leftTrimmed := buffer.dropWhile (· == 48)
  let rightTrimmed := leftTrimmed.rdropWhile (· == 48)
  let exponent ← inInt (exponent + (leftTrimmed.length - rightTrimmed.length))
  if rightTrimmed.length > kMaxSignificantDecimalDigits then
    cutToMaxSignificantDigits rightTrimmed exponent
  else some (rightTrimmed, exponent)

/-! ## Reading -/

/-- The loop of `ReadUint64`; what it does not read is left. -/
def readUint64Loop (result : ℕ) : Bytes → ℕ × Bytes
  | [] => (result, [])
  | c :: buffer =>
    if result ≤ (2 ^ 64 - 1) / 10 - 1 then readUint64Loop (10 * result + digitVal c) buffer
    else (result, c :: buffer)

/-- `ReadUint64`. -/
def readUint64 (buffer : Bytes) : ℕ × Bytes := readUint64Loop 0 buffer

/-- `ReadDiyFp`: the number and how many digits are left. -/
def readDiyFp (buffer : Bytes) : DiyFp × ℕ :=
  let read := readUint64 buffer
  if read.2 = [] then (⟨read.1, 0⟩, 0)
  else (⟨if read.2.headD 0 ≥ 53 then read.1 + 1 else read.1, 0⟩, read.2.length)

/-! ## In doubles -/

/-- `kExactPowersOfTenSize`. -/
def kExactPowersOfTenSize : ℤ := 23

/-- `exact_powers_of_ten`, up to `10 ^ 22`. -/
def exactPowersOfTen (exponent : ℕ) : Double := Double.ofRat (10 ^ exponent)

/-- `DoubleStrtod`, where it finds a double. -/
def doubleStrtod (trimmed : Bytes) (exponent : ℤ) : Option Double :=
  let read := Double.ofRat (readUint64 trimmed).1
  let remainingDigits := kMaxExactDoubleIntegerDecimalDigits - trimmed.length
  if trimmed.length > kMaxExactDoubleIntegerDecimalDigits then none
  else if exponent < 0 ∧ -exponent < kExactPowersOfTenSize then
    some (.ofRat (read.magnitude / (exactPowersOfTen (-exponent).toNat).magnitude))
  else if 0 ≤ exponent ∧ exponent < kExactPowersOfTenSize then
    some (.ofRat (read.magnitude * (exactPowersOfTen exponent.toNat).magnitude))
  else if 0 ≤ exponent ∧ exponent - remainingDigits < kExactPowersOfTenSize then
    let scaled := Double.ofRat (read.magnitude * (exactPowersOfTen remainingDigits).magnitude)
    some (.ofRat (scaled.magnitude
      * (exactPowersOfTen (exponent - remainingDigits).toNat).magnitude))
  else none

/-! ## In sixty-four bits -/

/-- `AdjustmentPowerOfTen`. -/
def adjustmentPowerOfTen : ℕ → DiyFp
  | 1 => ⟨0xa000000000000000, -60⟩
  | 2 => ⟨0xc800000000000000, -57⟩
  | 3 => ⟨0xfa00000000000000, -54⟩
  | 4 => ⟨0x9c40000000000000, -50⟩
  | 5 => ⟨0xc350000000000000, -47⟩
  | 6 => ⟨0xf424000000000000, -44⟩
  | 7 => ⟨0x9896800000000000, -40⟩
  | _ => ⟨0, 0⟩

/-- A number and its error, in eighths of its last place. -/
structure Approximation where
  input : DiyFp
  error : ℕ
deriving DecidableEq

/-- `input.Normalize()` and `error <<= old_e - input.e()`. -/
def Approximation.normalize (a : Approximation) : Approximation :=
  let input := a.input.normalize
  ⟨input, a.error * 2 ^ (a.input.e - input.e).toNat⟩

/-- The multiplication with `AdjustmentPowerOfTen`, of a buffer of `length` digits. -/
def Approximation.adjust (a : Approximation) (length adjustmentExponent : ℕ) : Approximation :=
  if adjustmentExponent = 0 then a
  else ⟨a.input.times (adjustmentPowerOfTen adjustmentExponent),
    if (kMaxUint64DecimalDigits - length : ℤ) ≥ adjustmentExponent then a.error else a.error + 4⟩

/-- The multiplication with a cached power. -/
def Approximation.scale (a : Approximation) (power : CachedPower) : Approximation :=
  ⟨a.input.times ⟨power.significand, power.binaryExponent⟩,
    a.error + (4 + (if a.error = 0 then 0 else 1) + 4)⟩

/-- The digits times the power of ten, with `exponent` for the digits that were read. -/
def approximate (input : DiyFp) (remainingDecimals length : ℕ) (exponent : ℤ) : Approximation :=
  let power := getCachedPowerForDecimalExponent exponent
  let a : Approximation := ⟨input, if remainingDecimals = 0 then 0 else 4⟩
  ((a.normalize.adjust length (exponent - power.decimalExponent).toNat).scale power).normalize

/-- The end of `DiyFpStrtod`: rounding, and whether the error leaves no choice. -/
def Approximation.round (a : Approximation) : Double × Bool :=
  let orderOfMagnitude := 64 + a.input.e
  let precisionDigitsCount :=
    (64 - Double.significandSizeForOrderOfMagnitude orderOfMagnitude).toNat
  let shiftAmount := if precisionDigitsCount + 3 ≥ 64 then precisionDigitsCount + 3 - 64 + 1 else 0
  let f := a.input.f / 2 ^ shiftAmount
  let e := a.input.e + shiftAmount
  let error := if precisionDigitsCount + 3 ≥ 64 then a.error / 2 ^ shiftAmount + 1 + 8 else a.error
  let precisionDigitsCount := precisionDigitsCount - shiftAmount
  let precisionBits := f % 2 ^ precisionDigitsCount * 8
  let halfWay := 2 ^ (precisionDigitsCount - 1) * 8
  let rounded := if precisionBits ≥ halfWay + error then f / 2 ^ precisionDigitsCount + 1
    else f / 2 ^ precisionDigitsCount
  (.ofDiyFp ⟨rounded, e + precisionDigitsCount⟩,
    !(decide (halfWay - error < precisionBits) && decide (precisionBits < halfWay + error)))

/-- `DiyFpStrtod`. -/
def diyFpStrtod (buffer : Bytes) (exponent : ℤ) : Double × Bool :=
  let read := readDiyFp buffer
  let exponent := exponent + read.2
  if exponent < -348 then (.ofBits 0, true)
  else (approximate read.1 read.2 buffer.length exponent).round

/-! ## In large numbers -/

/-- `CompareBufferWithDiyFp`. -/
def compareBufferWithDiyFp (buffer : Bytes) (exponent : ℤ) (w : DiyFp) : Option ℤ := do
  let bufferBignum ← Bignum.zero.assignDecimalLoopIn buffer
  let diyFpBignum := Bignum.assignUInt64 w.f
  let bufferBignum ← (if exponent ≥ 0 then bufferBignum.multiplyByPowerOfTenIn exponent.toNat
    else some bufferBignum)
  let diyFpBignum ← (if exponent ≥ 0 then some diyFpBignum
    else diyFpBignum.multiplyByPowerOfTenIn (-exponent).toNat)
  let diyFpBignum ← (if w.e > 0 then diyFpBignum.shiftLeftIn w.e.toNat else some diyFpBignum)
  let bufferBignum ← (if w.e > 0 then some bufferBignum
    else bufferBignum.shiftLeftIn (-w.e).toNat)
  some (Bignum.compare bufferBignum diyFpBignum)

/-! ## The nearest double -/

/-- `ComputeGuess`: a guess, and whether it is correct. -/
def computeGuess (trimmed : Bytes) (exponent : ℤ) : Option (Double × Bool) :=
  if trimmed.length = 0 then some (.ofBits 0, true)
  else do
    let power ← inInt (exponent + trimmed.length)
    if (← inInt (power - 1)) ≥ kMaxDecimalPower then some (.infinity, true)
    else if power ≤ kMinDecimalPower then some (.ofBits 0, true)
    else
      match doubleStrtod trimmed exponent with
      | some guess => some (guess, true)
      | none =>
        let guess := diyFpStrtod trimmed exponent
        some (guess.1, guess.2 || guess.1 = .infinity)

/-- `Strtod`; the length of a `Vector` is an `int`. -/
def strtod (buffer : Bytes) (exponent : ℤ) : Option Double := do
  let _ ← inInt buffer.length
  let trimmed ← trimAndCut buffer exponent
  let guess ← computeGuess trimmed.1 trimmed.2
  if guess.2 then some guess.1
  else
    let comparison ← compareBufferWithDiyFp trimmed.1 trimmed.2 guess.1.upperBoundary
    if comparison < 0 then some guess.1
    else if comparison > 0 then some guess.1.nextDouble
    else if guess.1.significand % 2 = 0 then some guess.1
    else some guess.1.nextDouble

end S4LibLite

import Mathlib.Data.List.DropRight
import Mathlib.Data.Nat.Digits.Defs
import Mathlib.Data.Int.Order.Basic

/-!
# Large numbers (`bignum.cc`, `bignum.h`)

A `Bignum` keeps 28 bits of a number in each of its bigits, the lowest first, and leaves out whole
bigits of zeros below them, which its exponent counts.

`bigits_` is the list of the bigits in use; those behind them are zero. A `Chunk` is 32 bits wide
and a `DoubleChunk` 64, and `& kBigitMask` and `>> kBigitSize` are the remainder and the quotient
by `2 ^ 28`. The remainders by `2 ^ 32` and `2 ^ 64` stand where a chunk can wrap. The list is as
long as it has to be; where `EnsureCapacity` stops the program is said in `BignumArray`, with the
functions that are made of others.
-/

namespace S4LibLite

/-- `Bignum::kMaxSignificantBits`. -/
def kMaxSignificantBits : ℕ := 3584

/-- `Bignum`: `bigits_`, as far as `used_digits_` goes, and `exponent_`. -/
structure Bignum where
  bigits : List ℕ
  exponent : ℕ
deriving DecidableEq

namespace Bignum

/-- The number: `value(bigits_) * 2^(exponent_ * kBigitSize)`. -/
def value (a : Bignum) : ℕ := Nat.ofDigits (2 ^ 28) a.bigits * (2 ^ 28) ^ a.exponent

/-- `Zero`. -/
def zero : Bignum := ⟨[], 0⟩

/-- `BigitLength`: the hidden bigits count. -/
def bigitLength (a : Bignum) : ℕ := a.bigits.length + a.exponent

/-- `BigitAt`. -/
def bigitAt (a : Bignum) (index : ℕ) : ℕ :=
  if index ≥ a.bigitLength then 0
  else if index < a.exponent then 0
  else a.bigits.getD (index - a.exponent) 0

/-- `bigits_[used_digits_ - 1]`. -/
def topBigit (a : Bignum) : ℕ := a.bigits.getLastD 0

/-- `Clamp`. -/
def clamp (a : Bignum) : Bignum :=
  let bigits := a.bigits.rdropWhile (· == 0)
  ⟨bigits, if bigits = [] then 0 else a.exponent⟩

/-- `Align`: where `other` has fewer hidden bigits, some of `a`'s become zeros. -/
def align (a other : Bignum) : Bignum :=
  if a.exponent > other.exponent then
    ⟨List.replicate (a.exponent - other.exponent) 0 ++ a.bigits, other.exponent⟩
  else a

/-! ## Assigning -/

/-- `AssignUInt16`. -/
def assignUInt16 (value : ℕ) : Bignum := if value = 0 then zero else ⟨[value], 0⟩

/-- The loop of `AssignUInt64`. -/
def splitBigits : ℕ → ℕ → List ℕ
  | 0, _ => []
  | needed + 1, value => value % 2 ^ 28 :: splitBigits needed (value / 2 ^ 28)

/-- `AssignUInt64`: sixty-four bits need `64 / 28 + 1` bigits. -/
def assignUInt64 (value : ℕ) : Bignum :=
  if value = 0 then zero else clamp ⟨splitBigits 3 value, 0⟩

/-- `while (carry != 0)`: what is carried out becomes further bigits. -/
def appendCarry (carry : ℕ) : List ℕ :=
  if carry = 0 then [] else carry % 2 ^ 28 :: appendCarry (carry / 2 ^ 28)
termination_by carry

/-! ## Adding and subtracting -/

/-- The second loop of `AddBignum`, where the other number has no more bigits. -/
def addCarry : List ℕ → ℕ → List ℕ
  | [], carry => appendCarry carry
  | x :: xs, carry =>
    if carry = 0 then x :: xs
    else (x + carry) % 2 ^ 28 :: addCarry xs ((x + carry) / 2 ^ 28)

/-- The loops of `AddBignum`, from `bigit_pos` on. -/
def addLoop : List ℕ → List ℕ → ℕ → List ℕ
  | xs, [], carry => addCarry xs carry
  | xs, y :: ys, carry =>
    let sum := xs.headD 0 + y + carry
    sum % 2 ^ 28 :: addLoop xs.tail ys (sum / 2 ^ 28)

/-- `AddBignum`. -/
def addBignum (a other : Bignum) : Bignum :=
  let a := a.align other
  let bigitPos := other.exponent - a.exponent
  ⟨a.bigits.takeD bigitPos 0 ++ addLoop (a.bigits.drop bigitPos) other.bigits 0, a.exponent⟩

/-- The difference of two chunks. -/
def subChunk (x y : ℕ) : ℕ := (x + 2 ^ 32 - y) % 2 ^ 32

/-- The second loop of `SubtractBignum`; the borrow is the difference's top bit. -/
def subBorrow : List ℕ → ℕ → List ℕ
  | [], _ => []
  | x :: xs, borrow =>
    if borrow = 0 then x :: xs
    else
      let difference := subChunk x borrow
      difference % 2 ^ 28 :: subBorrow xs (difference / 2 ^ 31)

/-- The loops of `SubtractBignum`, from `offset` on. -/
def subLoop : List ℕ → List ℕ → ℕ → List ℕ
  | xs, [], borrow => subBorrow xs borrow
  | xs, y :: ys, borrow =>
    let difference := subChunk (subChunk (xs.headD 0) y) borrow
    difference % 2 ^ 28 :: subLoop xs.tail ys (difference / 2 ^ 31)

/-- `SubtractBignum`. -/
def subtractBignum (a other : Bignum) : Bignum :=
  let a := a.align other
  let offset := other.exponent - a.exponent
  clamp ⟨a.bigits.take offset ++ subLoop (a.bigits.drop offset) other.bigits 0, a.exponent⟩

/-! ## Shifting and multiplying -/

/-- The loop of `BigitsShiftLeft`. -/
def shiftLoop (shiftAmount : ℕ) : List ℕ → ℕ → List ℕ
  | [], carry => if carry = 0 then [] else [carry]
  | x :: xs, carry =>
    (x * 2 ^ shiftAmount % 2 ^ 32 + carry) % 2 ^ 32 % 2 ^ 28
      :: shiftLoop shiftAmount xs (x / 2 ^ (28 - shiftAmount))

/-- `ShiftLeft`. -/
def shiftLeft (a : Bignum) (shiftAmount : ℕ) : Bignum :=
  if a.bigits = [] then a
  else ⟨shiftLoop (shiftAmount % 28) a.bigits 0, a.exponent + shiftAmount / 28⟩

/-- The loops of `MultiplyByUInt32`. -/
def mul32Loop (factor : ℕ) : List ℕ → ℕ → List ℕ
  | [], carry => appendCarry carry
  | x :: xs, carry =>
    let product := factor * x + carry
    product % 2 ^ 28 :: mul32Loop factor xs (product / 2 ^ 28)

/-- `MultiplyByUInt32`. -/
def multiplyByUInt32 (a : Bignum) (factor : ℕ) : Bignum :=
  if factor = 1 then a
  else if factor = 0 then zero
  else if a.bigits = [] then a
  else ⟨mul32Loop factor a.bigits 0, a.exponent⟩

/-- `Times10`. -/
def times10 (a : Bignum) : Bignum := a.multiplyByUInt32 10

/-- The loops of `MultiplyByUInt64`; the factor's halves are multiplied apart. -/
def mul64Loop (low high : ℕ) : List ℕ → ℕ → List ℕ
  | [], carry => appendCarry carry
  | x :: xs, carry =>
    let productLow := low * x
    let productHigh := high * x
    let tmp := carry % 2 ^ 28 + productLow
    tmp % 2 ^ 28
      :: mul64Loop low high xs
          ((carry / 2 ^ 28 + tmp / 2 ^ 28 + productHigh * 2 ^ (32 - 28)) % 2 ^ 64)

/-- `MultiplyByUInt64`. -/
def multiplyByUInt64 (a : Bignum) (factor : ℕ) : Bignum :=
  if factor = 1 then a
  else if factor = 0 then zero
  else ⟨mul64Loop (factor % 2 ^ 32) (factor / 2 ^ 32) a.bigits 0, a.exponent⟩

/-! ## Powers -/

/-- The inner loops of `Square`: the two indices run towards each other. -/
def accumulate (bigits : List ℕ) (accumulator : ℕ) : ℕ → ℕ → ℕ → ℕ
  | 0, _, _ => accumulator
  | count + 1, bigitIndex1, bigitIndex2 =>
    accumulate bigits
      ((accumulator + bigits.getD bigitIndex1 0 * bigits.getD bigitIndex2 0) % 2 ^ 64)
      count (bigitIndex1 - 1) (bigitIndex2 + 1)

/-- The outer loops of `Square`, from bigit `i` on. -/
def squareLoop (bigits : List ℕ) : ℕ → ℕ → ℕ → List ℕ
  | 0, _, _ => []
  | count + 1, i, accumulator =>
    let used := bigits.length
    let accumulator :=
      if i < used then accumulate bigits accumulator (i + 1) i 0
      else accumulate bigits accumulator (used - (i - (used - 1))) (used - 1) (i - (used - 1))
    accumulator % 2 ^ 32 % 2 ^ 28 :: squareLoop bigits count (i + 1) (accumulator / 2 ^ 28)

/-- `Square`. -/
def square (a : Bignum) : Bignum :=
  clamp ⟨squareLoop a.bigits (2 * a.bigits.length) 0 0, 2 * a.exponent⟩

/-- `while ((base & 1) == 0)`: the odd part of the base and the shifts. -/
def removeTwos (base shifts : ℕ) : ℕ × ℕ :=
  if 0 < base ∧ base % 2 = 0 then removeTwos (base / 2) (shifts + 1) else (base, shifts)
termination_by base

/-- `while (tmp_base != 0)`: the bits of the base. -/
def bitSize (base : ℕ) : ℕ := if base = 0 then 0 else bitSize (base / 2) + 1
termination_by base

/-- `while (power_exponent >= mask)`: the bit above the exponent's first. -/
def findMask (powerExponent mask : ℕ) : ℕ :=
  if 0 < mask ∧ mask ≤ powerExponent then findMask powerExponent (mask * 2) else mask
termination_by powerExponent + 1 - mask

/-- The first loop of exponentiation, on sixty-four bits: the mask, the value and whether a
multiplication has been put off. -/
def powerLoop64 (base bitSize powerExponent mask thisValue : ℕ) (delayed : Bool) :
    ℕ × ℕ × Bool :=
  if mask ≠ 0 ∧ thisValue ≤ 0xFFFFFFFF then
    let thisValue := thisValue * thisValue
    if powerExponent &&& mask ≠ 0 then
      -- the first `bitSize` bits have to be free for the product
      if thisValue < 2 ^ (64 - bitSize) then
        powerLoop64 base bitSize powerExponent (mask / 2) (thisValue * base) delayed
      else powerLoop64 base bitSize powerExponent (mask / 2) thisValue true
    else powerLoop64 base bitSize powerExponent (mask / 2) thisValue delayed
  else (mask, thisValue, delayed)
termination_by mask

/-- The second loop of exponentiation, on a `Bignum`. -/
def squareAndMultiply (base powerExponent mask : ℕ) (a : Bignum) : Bignum :=
  if mask ≠ 0 then
    let a := a.square
    squareAndMultiply base powerExponent (mask / 2)
      (if powerExponent &&& mask ≠ 0 then a.multiplyByUInt32 base else a)
  else a
termination_by mask

/-- `AssignPowerUInt16`. -/
def assignPowerUInt16 (base powerExponent : ℕ) : Bignum :=
  if powerExponent = 0 then assignUInt16 1
  else
    let odd := removeTwos base 0
    let small := powerLoop64 odd.1 (bitSize odd.1) powerExponent
      (findMask powerExponent 1 / 4) odd.1 false
    let a := assignUInt64 small.2.1
    let a := if small.2.2 then a.multiplyByUInt32 odd.1 else a
    (squareAndMultiply odd.1 powerExponent small.1 a).shiftLeft (odd.2 * powerExponent)

/-! ## Comparing -/

/-- The loop of `Compare`, over the bigits `low ≤ i < low + count` from the top down. -/
def compareLoop (a b : Bignum) (low : ℕ) : ℕ → ℤ
  | 0 => 0
  | count + 1 =>
    let bigitA := a.bigitAt (low + count)
    let bigitB := b.bigitAt (low + count)
    if bigitA < bigitB then -1
    else if bigitA > bigitB then 1
    else compareLoop a b low count

/-- `Compare`. -/
def compare (a b : Bignum) : ℤ :=
  if a.bigitLength < b.bigitLength then -1
  else if a.bigitLength > b.bigitLength then 1
  else
    let low := min a.exponent b.exponent
    compareLoop a b low (a.bigitLength - low)

/-- The loop of `PlusCompare`: the borrow is what the sum lacks so far. -/
def plusCompareLoop (a b c : Bignum) (low : ℕ) : ℕ → ℕ → ℤ
  | 0, borrow => if borrow = 0 then 0 else -1
  | count + 1, borrow =>
    let chunkC := c.bigitAt (low + count)
    let sum := a.bigitAt (low + count) + b.bigitAt (low + count)
    if sum > chunkC + borrow then 1
    else if chunkC + borrow - sum > 1 then -1
    else plusCompareLoop a b c low count ((chunkC + borrow - sum) * 2 ^ 28)

/-- `PlusCompare`, where `a` is not shorter than `b`. -/
def plusCompareFrom (a b c : Bignum) : ℤ :=
  if a.bigitLength + 1 < c.bigitLength then -1
  else if a.bigitLength > c.bigitLength then 1
  else if a.exponent ≥ b.bigitLength ∧ a.bigitLength < c.bigitLength then -1
  else
    let low := min (min a.exponent b.exponent) c.exponent
    plusCompareLoop a b c low (c.bigitLength - low) 0

/-- `PlusCompare`. -/
def plusCompare (a b c : Bignum) : ℤ :=
  if a.bigitLength < b.bigitLength then plusCompareFrom b a c else plusCompareFrom a b c

/-! ## Dividing -/

/-- The second loop of `SubtractTimes`; it is left without `Clamp` where nothing is borrowed. -/
def timesBorrow : List ℕ → ℕ → List ℕ × Bool
  | [], _ => ([], true)
  | x :: xs, borrow =>
    if borrow = 0 then (x :: xs, false)
    else
      let difference := subChunk x borrow
      let rest := timesBorrow xs (difference / 2 ^ 31)
      (difference % 2 ^ 28 :: rest.1, rest.2)

/-- The loops of `SubtractTimes`, from the other number's exponent on. -/
def timesLoop (factor : ℕ) : List ℕ → List ℕ → ℕ → List ℕ × Bool
  | xs, [], borrow => timesBorrow xs borrow
  | xs, y :: ys, borrow =>
    let remove := borrow + factor * y
    let difference := subChunk (xs.headD 0) (remove % 2 ^ 28)
    let rest := timesLoop factor xs.tail ys ((difference / 2 ^ 31 + remove / 2 ^ 28) % 2 ^ 32)
    (difference % 2 ^ 28 :: rest.1, rest.2)

/-- `SubtractTimes`. -/
def subtractTimes (a other : Bignum) (factor : ℕ) : Bignum :=
  if factor < 3 then (·.subtractBignum other)^[factor] a
  else
    let exponentDiff := other.exponent - a.exponent
    let rest := timesLoop factor (a.bigits.drop exponentDiff) other.bigits 0
    let a := ⟨a.bigits.take exponentDiff ++ rest.1, a.exponent⟩
    if rest.2 then clamp a else a

/-- `while (BigitLength() > other.BigitLength())`: multiples by the first bigit are taken away. -/
def removeMultiples (other : Bignum) : ℕ → Bignum → ℕ → Bignum × ℕ
  | 0, a, result => (a, result)
  | steps + 1, a, result =>
    if a.bigitLength > other.bigitLength then
      removeMultiples other steps (a.subtractTimes other a.topBigit)
        ((result + a.topBigit) % 2 ^ 16)
    else (a, result)

/-- `while (LessEqual(other, *this))`. -/
def subtractWhile (other : Bignum) : ℕ → Bignum → ℕ → Bignum × ℕ
  | 0, a, result => (a, result)
  | steps + 1, a, result =>
    if other.compare a ≤ 0 then
      subtractWhile other steps (a.subtractBignum other) ((result + 1) % 2 ^ 16)
    else (a, result)

/-- `DivideModuloIntBignum`: the remainder and the result. Every turn of a loop makes the number
smaller, so there are no more turns than its value. -/
def divideModuloIntBignum (a other : Bignum) : Bignum × ℕ :=
  if a.bigitLength < other.bigitLength then (a, 0)
  else
    let start := removeMultiples other a.value (a.align other) 0
    let a := start.1
    let thisBigit := a.topBigit
    let otherBigit := other.topBigit
    if other.bigits.length = 1 then
      let quotient := thisBigit / otherBigit
      (clamp ⟨a.bigits.dropLast ++ [thisBigit - otherBigit * quotient], a.exponent⟩,
        (start.2 + quotient) % 2 ^ 16)
    else
      let divisionEstimate := thisBigit / (otherBigit + 1)
      let result := (start.2 + divisionEstimate) % 2 ^ 16
      let a := a.subtractTimes other divisionEstimate
      if otherBigit * (divisionEstimate + 1) > thisBigit then (a, result)
      else subtractWhile other a.value a result

end Bignum
end S4LibLite

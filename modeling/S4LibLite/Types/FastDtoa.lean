import S4LibLite.Types.CachedPowers

/-!
# Digits in sixty-four bits (`fast-dtoa.cc`)

`FastDtoa` multiplies a double by a cached power of ten and cuts the product into an integer of
thirty-two bits and a fraction, whose digits it writes. The product is off by less than one unit of
its last place. Where that leaves open which way the last digit is rounded, `FastDtoa` gives up.

`FAST_DTOA_PRECISION` is the mode modelled.
-/

namespace S4LibLite

/-- `kSmallPowersOfTen`. -/
def kSmallPowersOfTen : List ℕ :=
  [0, 1, 10, 100, 1000, 10000, 100000, 1000000, 10000000, 100000000, 1000000000]

/-- `BiggestPowerTen`: the power and its exponent plus one. -/
def biggestPowerTen (number numberBits : ℕ) : ℕ × ℕ :=
  let guess := (numberBits + 1) * 1233 / 2 ^ 12 + 1
  let guess := if number < kSmallPowersOfTen.getD guess 0 then guess - 1 else guess
  (kSmallPowersOfTen.getD guess 0, guess)

/-- `RoundWeedCounted`: the buffer and what is added to `kappa`, or nothing where the error leaves
the direction open. -/
def roundWeedCounted (buffer : Bytes) (rest tenKappa unit : ℕ) : Option (Bytes × ℤ) :=
  if unit ≥ tenKappa then none
  else if tenKappa - unit ≤ unit then none
  else if tenKappa - rest > rest ∧ tenKappa - 2 * rest ≥ 2 * unit then some (buffer, 0)
  else if rest > unit ∧ tenKappa - (rest - unit) ≤ rest - unit then
    some (propagateCarry (buffer.dropLast ++ [buffer.getLastD 0 + 1]))
  else none

/-- What the first loop of `DigitGenCounted` leaves behind. -/
structure Integrals where
  buffer : Bytes
  requestedDigits : ℕ
  integrals : ℕ
  divisor : ℕ
  kappa : ℕ

/-- The first loop of `DigitGenCounted`, over the digits in front of the point. -/
def integralLoop : ℕ → ℕ → ℕ → ℕ → Integrals
  | 0, requestedDigits, integrals, divisor => ⟨[], requestedDigits, integrals, divisor, 0⟩
  | kappa + 1, requestedDigits, integrals, divisor =>
    let digit := digitChar (integrals / divisor)
    if requestedDigits - 1 = 0 then ⟨[digit], 0, integrals % divisor, divisor, kappa⟩
    else
      let rest := integralLoop kappa (requestedDigits - 1) (integrals % divisor) (divisor / 10)
      { rest with buffer := digit :: rest.buffer }

/-- What the second loop of `DigitGenCounted` leaves behind. -/
structure Fractionals where
  buffer : Bytes
  requestedDigits : ℕ
  fractionals : ℕ
  wError : ℕ

/-- The second loop of `DigitGenCounted`, over the digits behind the point; the point stands at bit
`shift`. -/
def fractionalLoop (shift : ℕ) : ℕ → ℕ → ℕ → Fractionals
  | 0, fractionals, wError => ⟨[], 0, fractionals, wError⟩
  | requestedDigits + 1, fractionals, wError =>
    if fractionals > wError then
      let fractionals := fractionals * 10
      let rest := fractionalLoop shift requestedDigits (fractionals % 2 ^ shift) (wError * 10)
      { rest with buffer := digitChar (fractionals / 2 ^ shift) :: rest.buffer }
    else ⟨[], requestedDigits + 1, fractionals, wError⟩

/-- `DigitGenCounted`: the digits and `kappa`. -/
def digitGenCounted (w : DiyFp) (requestedDigits : ℕ) : Option (Bytes × ℤ) :=
  let shift := (-w.e).toNat
  let power := biggestPowerTen (w.f / 2 ^ shift) (64 - shift)
  let whole := integralLoop power.2 requestedDigits (w.f / 2 ^ shift) power.1
  if whole.requestedDigits = 0 then
    (roundWeedCounted whole.buffer (whole.integrals * 2 ^ shift + w.f % 2 ^ shift)
      (whole.divisor * 2 ^ shift) 1).map fun rounded => (rounded.1, whole.kappa + rounded.2)
  else
    let part := fractionalLoop shift whole.requestedDigits (w.f % 2 ^ shift) 1
    if part.requestedDigits ≠ 0 then none
    else
      (roundWeedCounted (whole.buffer ++ part.buffer) part.fractionals (2 ^ shift)
        part.wError).map fun rounded =>
          (rounded.1, whole.kappa - part.buffer.length + rounded.2)

/-- `Grisu3Counted`: the digits and the decimal exponent. -/
def grisu3Counted (v : Double) (requestedDigits : ℕ) : Option (Bytes × ℤ) :=
  let w := v.asNormalizedDiyFp
  let tenMk := getCachedPowerForBinaryExponentRange (-60 - (w.e + 64))
  (digitGenCounted (w.times ⟨tenMk.significand, tenMk.binaryExponent⟩) requestedDigits).map
    fun digits => (digits.1, -tenMk.decimalExponent + digits.2)

/-- `FastDtoa`, for a number of digits: the digits and the decimal point. -/
def fastDtoaCounted (v : Double) (requestedDigits : ℕ) : Option (Bytes × ℤ) :=
  (grisu3Counted v requestedDigits).map fun digits => (digits.1, digits.1.length + digits.2)

end S4LibLite

import S4LibLite.Lib.Rounding
import Mathlib.Algebra.Order.Field.Rat
import Mathlib.Data.Rat.Floor

/-!
# Doubles (`ieee.h`)

`Double` is a double by its bits, and `Binary` stands for what the compiler's own arithmetic on
doubles does where nothing overflows: every result is rounded to fifty-three bits, halves to even.

The masks `kSignMask`, `kExponentMask` and `kSignificandMask` cut the bits at `2 ^ 52` and `2 ^ 63`.
-/

namespace S4LibLite

/-- `Double::kHiddenBit`. -/
def kHiddenBit : ℕ := 2 ^ 52

/-- `Double::kDenormalExponent`. -/
def kDenormalExponent : ℤ := -1074

/-- `Double`. -/
structure Double where
  d64 : ℕ
  lt : d64 < 2 ^ 64
deriving DecidableEq

namespace Double

/-- The exponent's bits. -/
def biasedExponent (v : Double) : ℕ := v.d64 / 2 ^ 52 % 2 ^ 11

/-- `IsDenormal`. -/
def isDenormal (v : Double) : Bool := v.biasedExponent == 0

/-- `IsSpecial`: an infinity or no number at all. -/
def isSpecial (v : Double) : Bool := v.biasedExponent == 2 ^ 11 - 1

/-- `Sign() < 0`. -/
def isNegative (v : Double) : Bool := decide (2 ^ 63 ≤ v.d64)

/-- `Exponent`. -/
def exponent (v : Double) : ℤ :=
  if v.isDenormal then kDenormalExponent else v.biasedExponent - 1075

/-- `Significand`. -/
def significand (v : Double) : ℕ :=
  if v.isDenormal then v.d64 % 2 ^ 52 else v.d64 % 2 ^ 52 + kHiddenBit

/-- `-v`. -/
def neg (v : Double) : Double := ⟨(v.d64 + 2 ^ 63) % 2 ^ 64, Nat.mod_lt _ (by norm_num)⟩

/-- The number without its sign. -/
def magnitude (v : Double) : ℚ := v.significand * 2 ^ v.exponent

/-- The number, unless the double is special. -/
def value (v : Double) : ℚ := (if v.isNegative then -1 else 1) * v.magnitude

/-- A significand has fifty-three bits. -/
theorem significand_lt (v : Double) : v.significand < 2 ^ 53 := by
  have := Nat.mod_lt v.d64 (show 0 < 2 ^ 52 by norm_num)
  rw [significand, kHiddenBit]
  split <;> omega

theorem exponent_ge (v : Double) : -1074 ≤ v.exponent := by
  rw [exponent, isDenormal]
  split
  · exact le_rfl
  · rename_i h
    rw [beq_iff_eq] at h
    omega

/-- The largest exponent of a finite double. -/
theorem exponent_le {v : Double} (h : v.isSpecial = false) : v.exponent ≤ 971 := by
  rw [isSpecial, beq_eq_false_iff_ne] at h
  have : v.biasedExponent < 2 ^ 11 := Nat.mod_lt _ (by norm_num)
  rw [exponent, kDenormalExponent]
  split <;> omega

/-- A number whose significand has no hidden bit has the smallest exponent. -/
theorem exponent_of_significand_lt {v : Double} (h : v.significand < 2 ^ 52) :
    v.exponent = -1074 := by
  rw [significand, kHiddenBit] at h
  rw [exponent, kDenormalExponent]
  split
  · rfl
  · rename_i hd
    rw [if_neg hd] at h
    omega

/-- Only zeros have no magnitude. -/
theorem magnitude_pos_iff (v : Double) : 0 < v.magnitude ↔ 0 < v.significand := by
  rw [magnitude, mul_pos_iff_of_pos_right (zpow_pos (by norm_num) _), Nat.cast_pos]

end Double

/-! ## Arithmetic on doubles -/

/-- `mantissa * 2 ^ exponent`. -/
structure Binary where
  mantissa : ℤ
  exponent : ℤ
deriving DecidableEq

namespace Binary

/-- `n / d`, rounded to an integer; of two equally close, to the even one. -/
def roundHalfEven (n d : ℕ) : ℕ :=
  if d < 2 * (n % d) ∨ 2 * (n % d) = d ∧ n / d % 2 = 1 then n / d + 1 else n / d

/-- A number of any length as a double. -/
def toDouble (a : Binary) : Binary :=
  let shift := a.mantissa.natAbs.log2 + 1 - 53
  ⟨a.mantissa.sign * roundHalfEven a.mantissa.natAbs (2 ^ shift), a.exponent + shift⟩

/-- The literal `n / d` as a double. -/
def ofRatio (n d : ℕ) : Binary :=
  let scale := 53 + d.log2 + 1 - n.log2
  let shift := (n * 2 ^ scale / d).log2 + 1 - 53
  ⟨roundHalfEven (n * 2 ^ scale) (d * 2 ^ shift), shift - scale⟩

/-- An `int` as a double. -/
def ofInt (n : ℤ) : Binary := ⟨n, 0⟩

/-- The product of two doubles. -/
def mul (a b : Binary) : Binary := toDouble ⟨a.mantissa * b.mantissa, a.exponent + b.exponent⟩

/-- The difference of two doubles. -/
def sub (a b : Binary) : Binary :=
  let exponent := min a.exponent b.exponent
  toDouble ⟨a.mantissa <<< (a.exponent - exponent).toNat
    - b.mantissa <<< (b.exponent - exponent).toNat, exponent⟩

/-- `ceil`, as an integer. -/
def ceil (a : Binary) : ℤ :=
  if 0 ≤ a.exponent then a.mantissa <<< a.exponent.toNat
  else -((-a.mantissa) >>> (-a.exponent).toNat)

/-- The number itself. -/
def value (a : Binary) : ℚ := a.mantissa * 2 ^ a.exponent

end Binary

end S4LibLite

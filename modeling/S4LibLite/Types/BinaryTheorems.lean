import S4LibLite.Types.Ieee
import Mathlib.Data.Nat.Log
import Mathlib.Algebra.Order.Ring.Abs
import Mathlib.Tactic.Linarith

/-!
# How far arithmetic on doubles is off

* `toDouble_near`, a number is off by no more than its 2⁵³-th part once it is a double;
* `le_toDouble`, a number of few bits that is hardly larger than another one is no larger than the
  double next to it;
* `trunc_eq`, `trunc_eq_of_nonpos`, what is cut off by a conversion to an integer.
-/

namespace S4LibLite
namespace Binary

/-- The sum of two doubles. -/
def add (a b : Binary) : Binary :=
  let exponent := min a.exponent b.exponent
  toDouble ⟨a.mantissa <<< (a.exponent - exponent).toNat
    + b.mantissa <<< (b.exponent - exponent).toNat, exponent⟩

/-- The conversion to an integer, towards zero. -/
def trunc (a : Binary) : ℤ :=
  if 0 ≤ a.exponent then a.mantissa <<< a.exponent.toNat
  else a.mantissa.tdiv (2 ^ (-a.exponent).toNat)

/-! ## Rounding to an integer -/

section

variable {n d : ℕ}

/-- The quotient is at most half a divisor away. -/
theorem roundHalfEven_near (hd : 0 < d) :
    2 * n ≤ 2 * (roundHalfEven n d * d) + d ∧ 2 * (roundHalfEven n d * d) ≤ 2 * n + d := by
  have hdiv := Nat.div_add_mod n d
  have hmod := Nat.mod_lt n hd
  rw [Nat.mul_comm] at hdiv
  rw [roundHalfEven]
  split
  · rename_i h
    rw [Nat.add_mul, Nat.one_mul]
    omega
  · rename_i h
    omega

theorem roundHalfEven_one : roundHalfEven n 1 = n := by
  rw [roundHalfEven, Nat.mod_one, Nat.div_one, if_neg (by omega)]

/-- Of two multiples of `d` the one is no larger than the other if it is less than `d` larger. -/
theorem le_of_dvd_of_lt {a b : ℕ} (ha : d ∣ a) (hb : d ∣ b) (h : a < b + d) : a ≤ b := by
  obtain ⟨k, rfl⟩ := ha
  obtain ⟨j, rfl⟩ := hb
  rw [← Nat.mul_succ] at h
  exact Nat.mul_le_mul_left d (Nat.le_of_lt_succ (Nat.lt_of_mul_lt_mul_left h))

/-- A multiple of `d` that is less than half of `d` larger is no larger than what is rounded. -/
theorem le_roundHalfEven (hd : 0 < d) {m : ℕ} (hm : d ∣ m) (h : 2 * m < 2 * n + d) :
    m ≤ roundHalfEven n d * d := by
  have hnear := (roundHalfEven_near (n := n) hd).1
  exact le_of_dvd_of_lt hm (Nat.dvd_mul_left ..) (by omega)

end

/-! ## Rounding to a double -/

theorem value_mk (m e : ℤ) : (⟨m, e⟩ : Binary).value = m * 2 ^ e := rfl

/-- How many bits are rounded away. -/
def shiftOf (a : Binary) : ℕ := a.mantissa.natAbs.log2 + 1 - 53

/-- `toDouble` rounds the magnitude to a multiple of the last place. -/
theorem value_toDouble (a : Binary) :
    (toDouble a).value = a.mantissa.sign
      * (roundHalfEven a.mantissa.natAbs (2 ^ a.shiftOf) * 2 ^ a.shiftOf : ℕ) * 2 ^ a.exponent := by
  rw [toDouble, ← shiftOf, value_mk, zpow_add₀ (by norm_num), zpow_natCast]
  push_cast
  ring

/-- The bits that are kept are 53. -/
theorem pow_le_natAbs (a : Binary) (h : 0 < a.shiftOf) :
    2 ^ 52 * 2 ^ a.shiftOf ≤ a.mantissa.natAbs := by
  have hne : a.mantissa.natAbs ≠ 0 := fun h0 => by
    rw [shiftOf, h0] at h
    exact absurd h (by decide)
  calc 2 ^ 52 * 2 ^ a.shiftOf = 2 ^ a.mantissa.natAbs.log2 := by
        rw [← pow_add]
        congr 1
        rw [shiftOf] at h ⊢
        omega
    _ ≤ a.mantissa.natAbs := Nat.log2_self_le hne

theorem natAbs_lt_pow (a : Binary) : a.mantissa.natAbs < 2 ^ 53 * 2 ^ a.shiftOf := by
  rcases Nat.eq_zero_or_pos a.mantissa.natAbs with h0 | hpos
  · rw [h0]
    positivity
  · refine (Nat.lt_log2_self (n := a.mantissa.natAbs)).trans_le ?_
    rw [← pow_add]
    exact Nat.pow_le_pow_right (by norm_num) (by rw [shiftOf]; omega)

/-- What is rounded away is no more than half a unit of the last bit that is kept. -/
theorem round_near (a : Binary) :
    2 ^ 54 * a.mantissa.natAbs
        ≤ 2 ^ 54 * (roundHalfEven a.mantissa.natAbs (2 ^ a.shiftOf) * 2 ^ a.shiftOf)
          + 2 * a.mantissa.natAbs
      ∧ 2 ^ 54 * (roundHalfEven a.mantissa.natAbs (2 ^ a.shiftOf) * 2 ^ a.shiftOf)
        ≤ 2 ^ 54 * a.mantissa.natAbs + 2 * a.mantissa.natAbs := by
  have hnear := roundHalfEven_near (n := a.mantissa.natAbs) (Nat.two_pow_pos a.shiftOf)
  rcases Nat.eq_zero_or_pos a.shiftOf with h0 | hpos
  · rw [h0, pow_zero, roundHalfEven_one]
    omega
  · have hle := a.pow_le_natAbs hpos
    omega

theorem mantissa_eq (a : Binary) : (a.mantissa : ℚ) = a.mantissa.sign * a.mantissa.natAbs := by
  rw [← Int.cast_natCast, ← Int.cast_mul, Int.sign_mul_natAbs]

/-- The sign is the one of the mantissa. -/
theorem abs_value (a : Binary) : |a.value| = a.mantissa.natAbs * 2 ^ a.exponent := by
  have hpow : (0 : ℚ) < 2 ^ a.exponent := zpow_pos (by norm_num) _
  rw [value, abs_mul, abs_of_pos hpow, Nat.cast_natAbs, Int.cast_abs]

/-- **The error of a double** is no more than the 2⁵³-th part of the number. -/
theorem toDouble_near (a : Binary) : |(toDouble a).value - a.value| ≤ |a.value| / 2 ^ 53 := by
  obtain ⟨hlow, hhigh⟩ := a.round_near
  have hpow : (0 : ℚ) < 2 ^ a.exponent := zpow_pos (by norm_num) _
  rw [value_toDouble, abs_value, value, mantissa_eq]
  generalize roundHalfEven a.mantissa.natAbs (2 ^ a.shiftOf) * 2 ^ a.shiftOf = r at hlow hhigh ⊢
  generalize a.mantissa.natAbs = n at hlow hhigh ⊢
  have hlow' : (2 : ℚ) ^ 54 * n ≤ 2 ^ 54 * r + 2 * n := by exact_mod_cast hlow
  have hhigh' : (2 : ℚ) ^ 54 * r ≤ 2 ^ 54 * n + 2 * n := by exact_mod_cast hhigh
  have hround : |(r : ℚ) - n| ≤ n / 2 ^ 53 := by
    rw [abs_le]
    constructor <;> linarith
  have hsign : |(a.mantissa.sign : ℚ)| ≤ 1 := by
    rcases Int.sign_trichotomy a.mantissa with h | h | h <;> rw [h] <;> norm_num
  rw [← sub_mul, ← mul_sub, abs_mul, abs_mul, abs_of_pos hpow, mul_div_right_comm]
  refine mul_le_mul_of_nonneg_right ?_ hpow.le
  calc |(a.mantissa.sign : ℚ)| * |(r : ℚ) - n| ≤ 1 * |(r : ℚ) - n| :=
        mul_le_mul_of_nonneg_right hsign (abs_nonneg _)
    _ = |(r : ℚ) - n| := one_mul _
    _ ≤ n / 2 ^ 53 := hround

/-- What is not negative does not become so. -/
theorem toDouble_nonneg {a : Binary} (ha : 0 ≤ a.mantissa) : 0 ≤ (toDouble a).value := by
  rw [value_toDouble]
  have hsign : (0 : ℚ) ≤ a.mantissa.sign := by exact_mod_cast Int.sign_nonneg_iff.mpr ha
  exact mul_nonneg (mul_nonneg hsign (Nat.cast_nonneg _)) (zpow_pos (by norm_num) _).le

/-- A multiple of `2 ^ k` that is hardly larger than a number, where doubles are not farther than
`2 ^ k` from each other, is no larger than the double next to it. -/
theorem le_toDouble {a : Binary} {m k : ℤ} (ha : 0 ≤ a.mantissa) (hk : a.exponent ≤ k)
    (hlt : a.value < 2 ^ 53 * 2 ^ k) (hnear : m * 2 ^ k - a.value ≤ a.value / 2 ^ 54) :
    m * 2 ^ k ≤ (toDouble a).value := by
  have hpow : (0 : ℚ) < 2 ^ a.exponent := zpow_pos (by norm_num) _
  have hpowk : (0 : ℚ) < 2 ^ k := zpow_pos (by norm_num) _
  have hvalue : a.value = a.mantissa.natAbs * 2 ^ a.exponent := by
    rw [← abs_value, abs_of_nonneg]
    exact mul_nonneg (by exact_mod_cast ha) hpow.le
  rcases le_or_gt m 0 with hm | hm
  · exact (mul_nonpos_of_nonpos_of_nonneg (by exact_mod_cast hm) hpowk.le).trans
      (toDouble_nonneg ha)
  obtain ⟨i, rfl⟩ := Int.eq_ofNat_of_zero_le hm.le
  obtain ⟨j, hj⟩ := Int.le.dest hk
  have hscale : (2 : ℚ) ^ k = 2 ^ j * 2 ^ a.exponent := by
    rw [← hj, zpow_add₀ (by norm_num), zpow_natCast, mul_comm]
  rw [hvalue, hscale, ← mul_assoc, mul_lt_mul_iff_left₀ hpow] at hlt
  rw [hvalue, hscale, ← mul_assoc, ← sub_mul, mul_div_right_comm, mul_le_mul_iff_left₀ hpow,
    Int.cast_natCast] at hnear
  have hlt' : a.mantissa.natAbs < 2 ^ 53 * 2 ^ j := by exact_mod_cast hlt
  have hpos : 0 < a.mantissa := by
    refine lt_of_le_of_ne ha fun hzero => ?_
    rw [← hzero, Int.natAbs_zero, Nat.cast_zero, sub_zero, zero_div] at hnear
    have : (0 : ℚ) < i * 2 ^ j := mul_pos (by exact_mod_cast hm) (by positivity)
    linarith
  have hdvd : 2 ^ a.shiftOf ∣ i * 2 ^ j := by
    refine Dvd.dvd.mul_left (pow_dvd_pow 2 ?_) i
    rcases Nat.eq_zero_or_pos a.shiftOf with h0 | hs
    · omega
    · have hle := a.pow_le_natAbs hs
      have hlt2 : 2 ^ a.shiftOf < 2 ^ (j + 1) := by
        rw [pow_succ]
        omega
      exact Nat.le_of_lt_succ ((Nat.pow_lt_pow_iff_right (by norm_num)).mp hlt2)
  have hclose : 2 * (i * 2 ^ j) < 2 * a.mantissa.natAbs + 2 ^ a.shiftOf := by
    have hbits : (a.mantissa.natAbs : ℚ) < 2 ^ 53 * 2 ^ a.shiftOf := by
      exact_mod_cast a.natAbs_lt_pow
    have : (2 * (i * 2 ^ j) : ℚ) < 2 * a.mantissa.natAbs + 2 ^ a.shiftOf := by linarith
    exact_mod_cast this
  have hround := le_roundHalfEven (Nat.two_pow_pos _) hdvd hclose
  rw [value_toDouble, Int.sign_eq_one_of_pos hpos, hscale, ← mul_assoc, Int.cast_one, one_mul,
    Int.cast_natCast]
  refine mul_le_mul_of_nonneg_right ?_ hpow.le
  exact_mod_cast hround

/-- The literal next to a ratio. -/
theorem ofRatio_near {n d : ℕ} (hn : 0 < n) (hd : 0 < d) :
    |(ofRatio n d).value - n / d| ≤ n / d / 2 ^ 53 := by
  rw [ofRatio]
  generalize hscale : 53 + d.log2 + 1 - n.log2 = scale
  generalize hshift : (n * 2 ^ scale / d).log2 + 1 - 53 = shift
  have hpos : 0 < d * 2 ^ shift := by positivity
  have hquot : 2 ^ 52 ≤ n * 2 ^ scale / d := by
    rw [Nat.le_div_iff_mul_le hd]
    calc 2 ^ 52 * d ≤ 2 ^ 52 * 2 ^ (d.log2 + 1) := Nat.mul_le_mul_left _ Nat.lt_log2_self.le
      _ = 2 ^ (53 + d.log2) := by
          rw [← pow_add]
          congr 1
          omega
      _ ≤ 2 ^ (n.log2 + scale) := Nat.pow_le_pow_right (by norm_num) (by omega)
      _ = 2 ^ n.log2 * 2 ^ scale := pow_add ..
      _ ≤ n * 2 ^ scale := Nat.mul_le_mul_right _ (Nat.log2_self_le hn.ne')
  have hbits : 2 ^ 52 * (d * 2 ^ shift) ≤ n * 2 ^ scale := by
    have hlog : 52 ≤ (n * 2 ^ scale / d).log2 := (Nat.le_log2 (by omega)).mpr hquot
    have hself := Nat.log2_self_le (n := n * 2 ^ scale / d) (by omega)
    rw [show (n * 2 ^ scale / d).log2 = 52 + shift by omega, pow_add,
      Nat.le_div_iff_mul_le hd] at hself
    linarith
  obtain ⟨hlow, hhigh⟩ := roundHalfEven_near (n := n * 2 ^ scale) hpos
  generalize roundHalfEven (n * 2 ^ scale) (d * 2 ^ shift) = r at hlow hhigh ⊢
  have hlow' : (2 * (n * 2 ^ scale) : ℚ) ≤ 2 * (r * (d * 2 ^ shift)) + d * 2 ^ shift := by
    exact_mod_cast hlow
  have hhigh' : (2 * (r * (d * 2 ^ shift)) : ℚ) ≤ 2 * (n * 2 ^ scale) + d * 2 ^ shift := by
    exact_mod_cast hhigh
  have hbits' : (2 ^ 52 * (d * 2 ^ shift) : ℚ) ≤ n * 2 ^ scale := by exact_mod_cast hbits
  have hd' : (0 : ℚ) < d := by exact_mod_cast hd
  have hscaled : ((⟨r, (shift : ℤ) - scale⟩ : Binary).value - n / d) * (d * 2 ^ scale)
      = r * (d * 2 ^ shift) - n * 2 ^ scale := by
    rw [value_mk, zpow_sub₀ (by norm_num), zpow_natCast, zpow_natCast]
    push_cast
    field_simp
  have hunit : (0 : ℚ) < d * 2 ^ scale := by positivity
  rw [← mul_le_mul_iff_left₀ hunit, ← abs_of_pos hunit, ← abs_mul, abs_of_pos hunit, hscaled,
    show (n / d / 2 ^ 53 * (d * 2 ^ scale) : ℚ) = n * 2 ^ scale / 2 ^ 53 by field_simp, abs_le]
  constructor <;> linarith

/-! ## Sums, products and what is cut off -/

theorem value_ofInt (n : ℤ) : (ofInt n).value = n := by
  rw [ofInt, value_mk, zpow_zero, mul_one]

theorem value_mul (a b : Binary) :
    (⟨a.mantissa * b.mantissa, a.exponent + b.exponent⟩ : Binary).value = a.value * b.value := by
  rw [value_mk, value, value, zpow_add₀ (by norm_num)]
  push_cast
  ring

/-- Two numbers with the same exponent. -/
theorem value_shift (a : Binary) {e : ℤ} (h : e ≤ a.exponent) :
    ((a.mantissa <<< (a.exponent - e).toNat : ℤ) : ℚ) * 2 ^ e = a.value := by
  rw [Int.shiftLeft_eq, value]
  push_cast
  rw [mul_assoc, ← zpow_natCast, ← zpow_add₀ (by norm_num)]
  congr 2
  omega

/-- Mantissas are brought to the smaller exponent and added. -/
theorem value_add (a b : Binary) :
    (⟨a.mantissa <<< (a.exponent - min a.exponent b.exponent).toNat
      + b.mantissa <<< (b.exponent - min a.exponent b.exponent).toNat,
      min a.exponent b.exponent⟩ : Binary).value = a.value + b.value := by
  rw [value_mk, Int.cast_add, add_mul, value_shift a (min_le_left _ _),
    value_shift b (min_le_right _ _)]

/-- The error of a product. -/
theorem mul_near (a b : Binary) :
    |(mul a b).value - a.value * b.value| ≤ |a.value * b.value| / 2 ^ 53 := by
  rw [← value_mul]
  exact toDouble_near _

/-- The error of a sum. -/
theorem add_near (a b : Binary) :
    |(add a b).value - (a.value + b.value)| ≤ |a.value + b.value| / 2 ^ 53 := by
  rw [← value_add]
  exact toDouble_near _

theorem mantissa_toDouble_nonneg {a : Binary} (ha : 0 ≤ a.mantissa) : 0 ≤ (toDouble a).mantissa :=
  mul_nonneg (Int.sign_nonneg_iff.mpr ha) (Int.natCast_nonneg _)

section Bounds

variable {a b : Binary} {m k : ℤ}

/-- `le_toDouble` for a product. -/
theorem le_mul (ha : 0 ≤ a.mantissa) (hb : 0 ≤ b.mantissa) (hk : a.exponent + b.exponent ≤ k)
    (hlt : a.value * b.value < 2 ^ 53 * 2 ^ k)
    (hnear : m * 2 ^ k - a.value * b.value ≤ a.value * b.value / 2 ^ 54) :
    m * 2 ^ k ≤ (mul a b).value := by
  rw [← value_mul] at hlt hnear
  exact le_toDouble (mul_nonneg ha hb) hk hlt hnear

/-- `le_toDouble` for a sum. -/
theorem le_add (ha : 0 ≤ a.mantissa) (hb : 0 ≤ b.mantissa) (hk : min a.exponent b.exponent ≤ k)
    (hlt : a.value + b.value < 2 ^ 53 * 2 ^ k)
    (hnear : m * 2 ^ k - (a.value + b.value) ≤ (a.value + b.value) / 2 ^ 54) :
    m * 2 ^ k ≤ (add a b).value := by
  rw [← value_add] at hlt hnear
  refine le_toDouble (add_nonneg ?_ ?_) hk hlt hnear
  · rw [Int.shiftLeft_eq]
    positivity
  · rw [Int.shiftLeft_eq]
    positivity

end Bounds

/-- A number without its fraction. -/
theorem trunc_eq {a : Binary} {n : ℤ} (hn : 0 ≤ n) (hlow : n ≤ a.value) (hhigh : a.value < n + 1) :
    a.trunc = n := by
  rw [trunc]
  split
  · rename_i he
    have hvalue : a.value = (a.mantissa <<< a.exponent.toNat : ℤ) := by
      rw [← value_shift a he, zpow_zero, mul_one, sub_zero]
    rw [hvalue] at hlow hhigh
    have h1 : n ≤ a.mantissa <<< a.exponent.toNat := by exact_mod_cast hlow
    have h2 : a.mantissa <<< a.exponent.toNat < n + 1 := by exact_mod_cast hhigh
    omega
  · rename_i he
    obtain ⟨j, hj⟩ := Int.eq_ofNat_of_zero_le (show 0 ≤ -a.exponent by omega)
    have hpow : (0 : ℚ) < 2 ^ j := by positivity
    have hvalue : a.value = a.mantissa / 2 ^ j := by
      rw [value, show a.exponent = -(j : ℤ) by omega, zpow_neg, zpow_natCast, div_eq_mul_inv]
    rw [hvalue, le_div_iff₀ hpow] at hlow
    rw [hvalue, div_lt_iff₀ hpow] at hhigh
    have h1 : n * 2 ^ j ≤ a.mantissa := by exact_mod_cast hlow
    have h2 : a.mantissa < (n + 1) * 2 ^ j := by exact_mod_cast hhigh
    rw [hj, Int.toNat_natCast,
      Int.tdiv_eq_ediv_of_nonneg ((mul_nonneg hn (by positivity)).trans h1)]
    exact le_antisymm (Int.lt_add_one_iff.mp (Int.ediv_lt_of_lt_mul (by positivity) h2))
      (Int.le_ediv_of_mul_le (by positivity) h1)

/-- `trunc` drops the fraction on both sides of zero. -/
theorem trunc_neg (a : Binary) : (⟨-a.mantissa, a.exponent⟩ : Binary).trunc = -a.trunc := by
  rw [trunc, trunc]
  dsimp only
  split
  · rw [Int.shiftLeft_eq, Int.shiftLeft_eq, neg_mul]
  · rw [Int.neg_tdiv]

/-- Below zero it is the fraction up to the next integer that is cut off. -/
theorem trunc_eq_of_nonpos {a : Binary} {n : ℤ} (hn : n ≤ 0) (hlow : n - 1 < a.value)
    (hhigh : a.value ≤ n) : a.trunc = n := by
  have hneg : (⟨-a.mantissa, a.exponent⟩ : Binary).value = -a.value := by
    rw [value_mk, value]
    push_cast
    ring
  have h := trunc_eq (a := ⟨-a.mantissa, a.exponent⟩) (show 0 ≤ -n by omega)
    (by rw [hneg]; push_cast; linarith) (by rw [hneg]; push_cast; linarith)
  rw [trunc_neg] at h
  omega

end Binary
end S4LibLite

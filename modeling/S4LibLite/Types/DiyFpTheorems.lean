import S4LibLite.Types.FastDtoaTheorems
import S4LibLite.Types.Strtod

/-!
# The digits times a power of ten, in sixty-four bits, and their error (`strtod.cc`, `diy-fp.h`)

Every multiplication adds half a unit for the power and half a unit for rounding, unless it is
exact.

* `DiyFp.spec_normalize`, `diyFpToUint64_index`, the highest bit brought up, a number as a double;
* `Approximation.Near`, the error is what it says, kept by `near_normalize`, `near_adjust` and
  `near_scale`;
* `spec_approximate`, the digits times the power of ten.
-/

namespace S4LibLite

/-! ## Normalizing -/

/-- The loop shifts up to the given number of leading bits. -/
theorem DiyFp.spec_shiftLoop {step : ℕ} (hstep : 0 < step) {f : ℕ} (hpos : 0 < f) (hlt : f < 2 ^ 64)
    (e : ℤ) : ∃ s : ℕ, DiyFp.shiftLoop step f e = ⟨f * 2 ^ s, e - s⟩
      ∧ 2 ^ (64 - step) ≤ f * 2 ^ s ∧ f * 2 ^ s < 2 ^ 64 := by
  fun_induction DiyFp.shiftLoop step f e with
  | case1 f e h ih =>
    have hfits : f * 2 ^ step < 2 ^ 64 := by
      rcases Nat.lt_or_ge step 65 with hs | hs
      · calc f * 2 ^ step < 2 ^ (64 - step) * 2 ^ step :=
              Nat.mul_lt_mul_of_pos_right h.2.2 (Nat.two_pow_pos _)
          _ = 2 ^ 64 := by rw [← pow_add, Nat.sub_add_cancel (by omega)]
      · rw [Nat.sub_eq_zero_of_le (by omega), pow_zero] at h
        omega
    obtain ⟨s, hloop, hlow, hhigh⟩ := ih (Nat.mul_pos hpos (Nat.two_pow_pos _)) hfits
    have hshift : f * 2 ^ (step + s) = f * 2 ^ step * 2 ^ s := by rw [pow_add, Nat.mul_assoc]
    refine ⟨step + s, ?_, by rwa [hshift], by rwa [hshift]⟩
    rw [hloop, hshift, Nat.cast_add, sub_add_eq_sub_sub]
  | case2 f e h =>
    refine ⟨0, by simp, ?_, by rwa [pow_zero, Nat.mul_one]⟩
    rw [pow_zero, Nat.mul_one]
    exact Nat.le_of_not_lt fun hlow => h ⟨hstep, hpos, hlow⟩

/-- The highest bit is brought up. -/
theorem DiyFp.spec_normalize {f : ℕ} (hpos : 0 < f) (hlt : f < 2 ^ 64) (e : ℤ) :
    ∃ s : ℕ, DiyFp.normalize ⟨f, e⟩ = ⟨f * 2 ^ s, e - s⟩
      ∧ 2 ^ 63 ≤ f * 2 ^ s ∧ f * 2 ^ s < 2 ^ 64 := by
  obtain ⟨s, hten, -, hfits⟩ := spec_shiftLoop (show 0 < 10 by norm_num) hpos hlt e
  obtain ⟨t, hone, hlow, hhigh⟩ := spec_shiftLoop (show 0 < 1 by norm_num)
    (Nat.mul_pos hpos (Nat.two_pow_pos s)) hfits (e - s)
  have hshift : f * 2 ^ (s + t) = f * 2 ^ s * 2 ^ t := by rw [pow_add, Nat.mul_assoc]
  refine ⟨s + t, ?_, by rwa [hshift], by rwa [hshift]⟩
  rw [DiyFp.normalize, hten]
  dsimp only
  rw [hone, hshift, Nat.cast_add, sub_add_eq_sub_sub]

/-! ## A number as a double -/

namespace Double

theorem raiseLoop_eq {m E : ℕ} (hE : E = 0 ∨ 2 ^ 52 ≤ m) : raiseLoop m E = ⟨m, E - 1074⟩ := by
  cases E with
  | zero => rfl
  | succ E =>
    have hm := hE.resolve_left (Nat.succ_ne_zero E)
    rw [raiseLoop, kHiddenBit, if_neg (Nat.not_lt.mpr hm), kDenormalExponent]
    congr 1

theorem dropLoop_eq {m : ℕ} (hm : m < 2 ^ 53) (e : ℤ) : dropLoop m e = ⟨m, e⟩ := by
  rw [dropLoop, if_neg (by omega)]

theorem kInfinity_eq : kInfinity = 2047 * 2 ^ 52 := by
  rw [kInfinity]
  norm_num

/-- The bits of a number whose surplus bits have been dropped. -/
theorem diyFpToUint64_of_dropLoop {w : DiyFp} {m E : ℕ} (hdrop : dropLoop w.f w.e = ⟨m, E - 1074⟩)
    (hm : m < 2 ^ 53) (hE : E = 0 ∨ 2 ^ 52 ≤ m) :
    diyFpToUint64 w = min kInfinity (E * 2 ^ 52 + m) := by
  rw [diyFpToUint64, hdrop]
  dsimp only
  rw [show (E - 1074 - kDenormalExponent).toNat = E by rw [kDenormalExponent]; omega,
    raiseLoop_eq hE]
  dsimp only
  rw [kMaxExponent, kDenormalExponent, kHiddenBit, kInfinity_eq]
  rcases Nat.lt_or_ge E 2046 with hfinite | hinfinite
  · have hbiased : (if (E : ℤ) - 1074 = -1074 ∧ m < 2 ^ 52 then 0 else (E : ℤ) - 1074 + 1075).toNat
        = if m < 2 ^ 52 then 0 else E + 1 := by
      split <;> split <;> omega
    rw [if_neg (by omega), if_neg (by omega), hbiased, min_eq_right (by omega)]
    split <;> omega
  · rw [if_pos (by omega), min_eq_left (by omega)]

/-- What fits has its place among the doubles, and what is too large is infinity. -/
theorem diyFpToUint64_index {m E : ℕ} (hm : m ≤ 2 ^ 53) (hE : E = 0 ∨ 2 ^ 52 ≤ m) :
    diyFpToUint64 ⟨m, E - 1074⟩ = min kInfinity (E * 2 ^ 52 + m) := by
  rcases Nat.lt_or_ge m (2 ^ 53) with h | h
  · exact diyFpToUint64_of_dropLoop (dropLoop_eq h _) h hE
  · -- one bit too many is a zero
    obtain rfl := Nat.le_antisymm hm h
    have hdrop : dropLoop (2 ^ 53) (E - 1074) = ⟨2 ^ 52, ((E + 1 : ℕ) : ℤ) - 1074⟩ := by
      rw [dropLoop, if_pos (by norm_num), show 2 ^ 53 / 2 = 2 ^ 52 by norm_num,
        dropLoop_eq (by norm_num)]
      congr 1
      omega
    rw [diyFpToUint64_of_dropLoop hdrop (by norm_num) (Or.inr le_rfl),
      show (E + 1) * 2 ^ 52 + 2 ^ 52 = E * 2 ^ 52 + 2 ^ 53 by ring]

/-- A number below the smallest unit is dropped. -/
theorem diyFpToUint64_small {m : ℕ} (hm : m < 2 ^ 53) {e : ℤ} (he : e < -1074) :
    diyFpToUint64 ⟨m, e⟩ = 0 := by
  rw [diyFpToUint64]
  dsimp only
  rw [dropLoop_eq hm]
  dsimp only
  rw [kMaxExponent, kDenormalExponent, if_neg (by omega), if_pos he]

theorem d64_ofBits {n : ℕ} (h : n ≤ kInfinity) : (ofBits n).d64 = n :=
  Nat.mod_eq_of_lt (h.trans_lt (by decide))

end Double

/-! ## The error of a product -/

/-- The power of ten that a table is short of, exactly. -/
theorem adjustmentPowerOfTen_eq : ∀ t : Fin 8, 0 < t.val →
    2 ^ 63 ≤ (adjustmentPowerOfTen t.val).f ∧ (adjustmentPowerOfTen t.val).f < 2 ^ 64
      ∧ (adjustmentPowerOfTen t.val).e ≤ 0 ∧ (adjustmentPowerOfTen t.val).f
        = 10 ^ t.val * 2 ^ (-(adjustmentPowerOfTen t.val).e).toNat := by decide

/-- The upper half of a product, rounded. -/
theorem abs_upper_half_sub_le (n : ℕ) :
    |(n : ℚ) / 2 ^ 64 - ((n + 2 ^ 63) / 2 ^ 64 : ℕ)| ≤ 1 / 2 := by
  have hdiv := Nat.div_add_mod (n + 2 ^ 63) (2 ^ 64)
  have hmod := Nat.mod_lt (n + 2 ^ 63) (show 0 < 2 ^ 64 by norm_num)
  generalize (n + 2 ^ 63) / 2 ^ 64 = q at *
  generalize (n + 2 ^ 63) % 2 ^ 64 = r at *
  have hdiv' : (2 ^ 64 * q + r : ℚ) = n + 2 ^ 63 := by exact_mod_cast hdiv
  have hmod' : (r : ℚ) < 2 ^ 64 := by exact_mod_cast hmod
  have hr : (0 : ℚ) ≤ r := Nat.cast_nonneg r
  rw [abs_le, div_sub' (by norm_num), le_div_iff₀ (by norm_num), div_le_iff₀ (by norm_num)]
  constructor <;> linarith

/-- The exact product, in units of the rounded one. -/
theorem scaled_product (v p : ℚ) (d e : ℤ) :
    v * p / 2 ^ (d + e + 64) = v / 2 ^ d * (p / 2 ^ e) / 2 ^ 64 := by
  rw [zpow_add₀ (by norm_num), zpow_add₀ (by norm_num), div_mul_div_comm, div_div]
  norm_num

/-- A product is as far off as its factors make it, and half a unit more. -/
theorem abs_product_sub_le {x y : DiyFp} (hx : x.f < 2 ^ 64) (hy : y.f < 2 ^ 64) (v p : ℚ) :
    |v * p / 2 ^ (x.times y).e - (x.times y).f|
      ≤ |v / 2 ^ x.e * (p / 2 ^ y.e) - x.f * y.f| / 2 ^ 64 + 1 / 2 := by
  have hround := abs_upper_half_sub_le (x.f * y.f)
  rw [times_eq hx hy]
  dsimp only
  rw [scaled_product, ← abs_of_pos (show (0 : ℚ) < 2 ^ 64 by norm_num), ← abs_div,
    abs_of_pos (show (0 : ℚ) < 2 ^ 64 by norm_num), sub_div]
  push_cast at hround ⊢
  exact (abs_sub_le _ (x.f * y.f / 2 ^ 64 : ℚ) _).trans (add_le_add le_rfl hround)

/-- Nothing is added where the lower half is zero. -/
theorem abs_product_sub_of_dvd {x y : DiyFp} (hx : x.f < 2 ^ 64) (hy : y.f < 2 ^ 64)
    (hdvd : 2 ^ 64 ∣ x.f * y.f) (v p : ℚ) :
    |v * p / 2 ^ (x.times y).e - (x.times y).f|
      = |v / 2 ^ x.e * (p / 2 ^ y.e) - x.f * y.f| / 2 ^ 64 := by
  obtain ⟨c, hc⟩ := hdvd
  have hcast : (x.f * y.f : ℚ) = 2 ^ 64 * c := by exact_mod_cast hc
  rw [times_eq hx hy, hc]
  dsimp only
  rw [show (2 ^ 64 * c + 2 ^ 63) / 2 ^ 64 = c by omega, scaled_product,
    ← abs_of_pos (show (0 : ℚ) < 2 ^ 64 by norm_num), ← abs_div,
    abs_of_pos (show (0 : ℚ) < 2 ^ 64 by norm_num), sub_div, hcast,
    mul_div_cancel_left₀ _ (by norm_num)]

theorem times_f_lt {x y : DiyFp} (hx : x.f < 2 ^ 64) (hy : y.f < 2 ^ 64) :
    (x.times y).f < 2 ^ 64 := by
  have hle : x.f * y.f ≤ (2 ^ 64 - 1) * (2 ^ 64 - 1) :=
    Nat.mul_le_mul (Nat.le_sub_one_of_lt hx) (Nat.le_sub_one_of_lt hy)
  rw [times_eq hx hy]
  dsimp only
  omega

theorem le_times_f {x y : DiyFp} (hx : x.f < 2 ^ 64) (hy : y.f < 2 ^ 64) {n : ℕ} (hn : 2 * n ≤ x.f)
    (hy63 : 2 ^ 63 ≤ y.f) : n ≤ (x.times y).f := by
  have hle : 2 * n * 2 ^ 63 ≤ x.f * y.f := Nat.mul_le_mul hn hy63
  rw [times_eq hx hy]
  dsimp only
  omega

namespace Approximation

/-- The number is as close as the error says. -/
def Near (a : Approximation) (v : ℚ) : Prop := |v / 2 ^ a.input.e - a.input.f| ≤ a.error / 8

/-- It is closer than that. -/
def Nearer (a : Approximation) (v : ℚ) : Prop := |v / 2 ^ a.input.e - a.input.f| < a.error / 8

/-- `Normalize` shifts the number together with its error. -/
theorem spec_normalize {a : Approximation} (hpos : 0 < a.input.f) (hlt : a.input.f < 2 ^ 64) :
    ∃ s : ℕ, a.normalize = ⟨⟨a.input.f * 2 ^ s, a.input.e - s⟩, a.error * 2 ^ s⟩
      ∧ 2 ^ 63 ≤ a.input.f * 2 ^ s ∧ a.input.f * 2 ^ s < 2 ^ 64 := by
  obtain ⟨s, hnormalize, hlow, hhigh⟩ := DiyFp.spec_normalize hpos hlt a.input.e
  refine ⟨s, ?_, hlow, hhigh⟩
  rw [normalize]
  rw [hnormalize]
  dsimp only
  rw [sub_sub_cancel, Int.toNat_natCast]

/-- Shifting scales the error. -/
theorem abs_shift (a : Approximation) (v : ℚ) (s : ℕ) :
    |v / 2 ^ (a.input.e - s) - (a.input.f * 2 ^ s : ℕ)|
      = |v / 2 ^ a.input.e - a.input.f| * 2 ^ s := by
  have hs : (0 : ℚ) < 2 ^ s := by positivity
  rw [zpow_sub₀ (by norm_num), zpow_natCast, ← abs_of_pos hs, ← abs_mul, abs_of_pos hs,
    div_div_eq_mul_div, Nat.cast_mul, Nat.cast_pow, Nat.cast_ofNat]
  congr 1
  ring

/-- A product of the highest bits of a number of few digits and an exact power of ten. -/
theorem dvd_exact {r s u t : ℕ} (ht : 0 < t) (hdigits : r * 10 ^ t < 10 ^ 19)
    (hlow : 2 ^ 126 ≤ r * 2 ^ s * (10 ^ t * 2 ^ u)) : 2 ^ 64 ∣ r * 2 ^ s * (10 ^ t * 2 ^ u) := by
  obtain ⟨t, rfl⟩ : ∃ i, t = i + 1 := ⟨t - 1, by omega⟩
  have hshift : r * 2 ^ s * (10 ^ (t + 1) * 2 ^ u) = r * 10 ^ (t + 1) * 2 ^ (s + u) := by ring
  have hsu : 62 < s + u := by
    refine (Nat.pow_lt_pow_iff_right (show 1 < 2 by norm_num)).mp ?_
    rw [hshift] at hlow
    refine Nat.lt_of_mul_lt_mul_left (a := 2 ^ 64) ?_
    calc 2 ^ 64 * 2 ^ 62 = 2 ^ 126 := by norm_num
      _ ≤ r * 10 ^ (t + 1) * 2 ^ (s + u) := hlow
      _ < 2 ^ 64 * 2 ^ (s + u) :=
        Nat.mul_lt_mul_of_pos_right (hdigits.trans (by norm_num)) (Nat.two_pow_pos _)
  -- one of the factors of two is that of the ten
  rw [hshift, show r * 10 ^ (t + 1) * 2 ^ (s + u) = 2 ^ (s + u + 1) * (r * 5 * 10 ^ t) by ring]
  exact (pow_dvd_pow 2 (by omega)).mul_right _

/-- A power of ten that is missing adds half a unit at most, and nothing where the product fits. -/
theorem near_adjust {a : Approximation} {v : ℚ} (h : a.Near v) (hlow : 2 ^ 63 ≤ a.input.f)
    (hlt : a.input.f < 2 ^ 64) {t : ℕ} (length : ℕ) (ht : t ≤ 7)
    (hexact : 0 < t → length + t ≤ 19 → ∃ r s, a.input.f = r * 2 ^ s ∧ r < 10 ^ length) :
    (a.adjust length t).Near (v * 10 ^ t) ∧ 2 ^ 62 ≤ (a.adjust length t).input.f
      ∧ (a.adjust length t).input.f < 2 ^ 64 ∧ (a.adjust length t).error ≤ a.error + 4 := by
  rcases Nat.eq_zero_or_pos t with rfl | hpos
  · rw [adjust, if_pos rfl, pow_zero, mul_one]
    exact ⟨h, by omega, hlt, by omega⟩
  obtain ⟨hA63, hA64, hAe, hA⟩ := adjustmentPowerOfTen_eq ⟨t, by omega⟩ hpos
  dsimp only at hA63 hA64 hAe hA
  rw [adjust, if_neg hpos.ne', Near]
  dsimp only
  refine ⟨?_, le_times_f hlt hA64 (by omega) hA63, times_f_lt hlt hA64, by split <;> omega⟩
  have hten : (10 : ℚ) ^ t / 2 ^ (adjustmentPowerOfTen t).e = (adjustmentPowerOfTen t).f := by
    rw [hA, div_eq_iff (zpow_ne_zero _ (by norm_num))]
    push_cast
    rw [← zpow_natCast (2 : ℚ), Int.toNat_of_nonneg (by omega), mul_assoc,
      ← zpow_add₀ (by norm_num), neg_add_cancel, zpow_zero, mul_one]
  have hclose : |v / 2 ^ a.input.e * (10 ^ t / 2 ^ (adjustmentPowerOfTen t).e)
      - a.input.f * (adjustmentPowerOfTen t).f| / 2 ^ 64 ≤ a.error / 8 := by
    have hAlt : ((adjustmentPowerOfTen t).f : ℚ) ≤ 2 ^ 64 := by exact_mod_cast hA64.le
    rw [hten, ← sub_mul, abs_mul, Nat.abs_cast, div_le_iff₀ (by norm_num)]
    exact mul_le_mul h hAlt (Nat.cast_nonneg _) (by positivity)
  split
  · rename_i hfits
    rw [kMaxUint64DecimalDigits] at hfits
    obtain ⟨r, s, hf, hr⟩ := hexact hpos (by omega)
    rw [abs_product_sub_of_dvd hlt hA64]
    · exact hclose
    · rw [hf, hA]
      refine dvd_exact hpos ?_ ?_
      · calc r * 10 ^ t < 10 ^ length * 10 ^ t := Nat.mul_lt_mul_of_pos_right hr (by positivity)
          _ = 10 ^ (length + t) := (pow_add _ _ _).symm
          _ ≤ 10 ^ 19 := Nat.pow_le_pow_right (by norm_num) (by omega)
      · rw [← hf, ← hA]
        calc 2 ^ 126 = 2 ^ 63 * 2 ^ 63 := by norm_num
          _ ≤ _ := Nat.mul_le_mul hlow hA63
  · refine (abs_product_sub_le hlt hA64 _ _).trans ?_
    push_cast
    linarith

/-- A cached power adds its own error, that of both, and half a unit. -/
theorem nearer_scale {a : Approximation} {v : ℚ} (h : a.Near v) (hlt : a.input.f < 2 ^ 64)
    (herror : a.error ≤ 2 ^ 9) {power : CachedPower} (hpower : cachedPowerOk power = true) :
    (a.scale power).Nearer (v * 10 ^ power.decimalExponent) := by
  obtain ⟨-, hhigh, hoff⟩ := accuracy_of_cachedPowerOk hpower
  rw [scale, Nearer]
  dsimp only
  refine (abs_product_sub_le hlt hhigh _ _).trans_lt ?_
  dsimp only
  rw [Near] at h
  generalize v / 2 ^ a.input.e = y at *
  generalize (10 : ℚ) ^ power.decimalExponent / 2 ^ power.binaryExponent = p at *
  have hsplit : y * p - a.input.f * power.significand = (y - a.input.f) * power.significand
      + a.input.f * (p - power.significand) + (y - a.input.f) * (p - power.significand) := by ring
  have hf : (a.input.f : ℚ) ≤ 2 ^ 64 - 1 := by
    have : a.input.f + 1 ≤ 2 ^ 64 := hlt
    rw [le_sub_iff_add_le]
    exact_mod_cast this
  have hpow : |(power.significand : ℚ)| ≤ 2 ^ 64 := by
    rw [Nat.abs_cast]
    exact_mod_cast hhigh.le
  have hsum : |y * p - a.input.f * power.significand|
      ≤ a.error / 8 * 2 ^ 64 + (2 ^ 64 - 1) * (1 / 2) + a.error / 8 * (1 / 2) := by
    rw [hsplit]
    refine (abs_add_three _ _ _).trans (add_le_add_three ?_ ?_ ?_) <;> rw [abs_mul]
    · exact mul_le_mul h hpow (abs_nonneg _) (by positivity)
    · rw [Nat.abs_cast]
      exact mul_le_mul hf hoff (abs_nonneg _) (by norm_num)
    · exact mul_le_mul h hoff (abs_nonneg _) (by positivity)
  have herror' : (a.error : ℚ) ≤ 2 ^ 9 := by exact_mod_cast herror
  have hscaled : |y * p - a.input.f * power.significand| / 2 ^ 64 ≤
      (a.error / 8 * 2 ^ 64 + (2 ^ 64 - 1) * (1 / 2) + a.error / 8 * (1 / 2)) / 2 ^ 64 :=
    div_le_div_of_nonneg_right hsum (by norm_num)
  split
  · rename_i hzero
    rw [hzero] at hscaled ⊢
    push_cast at hscaled ⊢
    linarith
  · push_cast
    linarith

/-- Shifts are few where the highest bits are not all zeros. -/
theorem two_pow_le {f s n : ℕ} (hf : 2 ^ (64 - n) ≤ f) (hn : n ≤ 64) (hlt : f * 2 ^ s < 2 ^ 64) :
    2 ^ s * 2 ≤ 2 ^ n := by
  have h : 2 ^ (64 - n + s) < 2 ^ 64 := by
    rw [pow_add]
    exact (Nat.mul_le_mul_right _ hf).trans_lt hlt
  have := (Nat.pow_lt_pow_iff_right (show 1 < 2 by norm_num)).mp h
  rw [← pow_succ]
  exact Nat.pow_le_pow_right (by norm_num) (by omega)

end Approximation

/-! ## The cached powers by their decimal exponents -/

theorem decimalExponent_eq : ∀ i : Fin 87,
    (kCachedPowers.getD i.val ⟨0, 0, 0⟩).decimalExponent = 8 * i.val - 348 := by decide

/-- The cached power is at most seven powers of ten below. -/
theorem spec_getCachedPowerForDecimalExponent {x : ℤ} (hlow : -348 ≤ x) (hhigh : x ≤ 347) :
    cachedPowerOk (getCachedPowerForDecimalExponent x) = true
      ∧ (getCachedPowerForDecimalExponent x).decimalExponent ≤ x
      ∧ x ≤ (getCachedPowerForDecimalExponent x).decimalExponent + 7 := by
  have hindex : ((x + 348) / 8).toNat < 87 := by omega
  have hexp := decimalExponent_eq ⟨((x + 348) / 8).toNat, hindex⟩
  dsimp only at hexp
  rw [getCachedPowerForDecimalExponent, hexp]
  refine ⟨List.all_eq_true.mp cachedPowerOk_all _ ?_, by omega, by omega⟩
  rw [List.getD_eq_getElem?_getD,
    List.getElem?_eq_getElem (show _ < kCachedPowers.length from hindex),
    Option.getD_some]
  exact List.getElem_mem _

/-! ## The digits times a power of ten -/

open Approximation in
/-- **The product** has its highest bit set and is as close to the number as its error says, which
is less than sixty-four units. Of the digits, `r` were read and rounded where there were more. -/
theorem spec_approximate {r remainingDecimals length : ℕ} {v : ℚ} {x : ℤ} (hpos : 0 < r)
    (hlt : r < 2 ^ 64) (hlow : -348 ≤ x) (hhigh : x ≤ 347)
    (hexact : remainingDecimals = 0 → v = r ∧ r < 10 ^ length)
    (hround : remainingDecimals ≠ 0 → |v - r| ≤ 1 / 2 ∧ 2 ^ 60 ≤ r ∧ 19 ≤ length) :
    2 ^ 63 ≤ (approximate ⟨r, 0⟩ remainingDecimals length x).input.f
      ∧ (approximate ⟨r, 0⟩ remainingDecimals length x).input.f < 2 ^ 64
      ∧ (approximate ⟨r, 0⟩ remainingDecimals length x).error ≤ 2 ^ 9
      ∧ (approximate ⟨r, 0⟩ remainingDecimals length x).Nearer (v * 10 ^ x) := by
  obtain ⟨hpower, hbelow, habove⟩ := spec_getCachedPowerForDecimalExponent hlow hhigh
  obtain ⟨hpower63, hpower64, -⟩ := accuracy_of_cachedPowerOk hpower
  obtain ⟨a, ha⟩ : ∃ a : Approximation, a = ⟨⟨r, 0⟩, if remainingDecimals = 0 then 0 else 4⟩ :=
    ⟨_, rfl⟩
  have hr : a.input.f = r := by rw [ha]
  rw [approximate, ← ha]
  generalize getCachedPowerForDecimalExponent x = power at *
  obtain ⟨t, ht⟩ : ∃ t : ℕ, x = power.decimalExponent + t :=
    ⟨(x - power.decimalExponent).toNat, by omega⟩
  rw [show (x - power.decimalExponent).toNat = t by omega]
  -- the digits as they were read
  obtain ⟨s, hnormalize, hf63, hf64⟩ := spec_normalize (hr ▸ hpos) (hr ▸ hlt)
  have hread : a.Near v ∧ a.error * 2 ^ s ≤ 32 := by
    rw [Near, ha]
    dsimp only
    rw [zpow_zero, div_one]
    split
    · rename_i hall
      rw [(hexact hall).1, sub_self, abs_zero]
      norm_num
    · rename_i hmore
      obtain ⟨hnear, hr60, -⟩ := hround hmore
      rw [hr] at hf64
      have := two_pow_le (n := 4) hr60 (by norm_num) hf64
      refine ⟨?_, by omega⟩
      push_cast
      linarith
  have hnear : a.normalize.Near v := by
    rw [hnormalize, Near]
    dsimp only
    rw [abs_shift]
    push_cast
    rw [mul_div_right_comm]
    exact mul_le_mul_of_nonneg_right hread.1 (by positivity)
  rw [hnormalize] at hnear ⊢
  have hadjusted := near_adjust hnear hf63 hf64 length (t := t) (by omega)
    fun ht0 hlength => ⟨r, s, by rw [hr], (hexact (by_contra fun hmore => by
      have := (hround hmore).2.2
      omega)).2⟩
  generalize Approximation.adjust _ length t = b at *
  obtain ⟨hnear₂, hb62, hb64, herror₂⟩ := hadjusted
  dsimp only at herror₂
  -- the cached power
  have hscaled := nearer_scale hnear₂ hb64 (by omega) hpower
  have hten : v * 10 ^ t * 10 ^ power.decimalExponent = v * 10 ^ x := by
    rw [ht, zpow_add₀ (by norm_num), zpow_natCast, mul_assoc, mul_comm (10 ^ t : ℚ)]
  have hc61 : 2 ^ 61 ≤ (b.scale power).input.f := le_times_f hb64 hpower64 (by omega) hpower63
  have hc64 : (b.scale power).input.f < 2 ^ 64 := times_f_lt hb64 hpower64
  have herror₃ : (b.scale power).error ≤ 45 := by
    rw [scale]
    dsimp only
    split <;> omega
  rw [hten] at hscaled
  generalize b.scale power = c at *
  obtain ⟨u, hnormalize₄, hf63₄, hf64₄⟩ := spec_normalize (by omega) hc64
  have hu := two_pow_le (n := 3) hc61 (by norm_num) hf64₄
  rw [hnormalize₄]
  refine ⟨hf63₄, hf64₄, ?_, ?_⟩
  · exact (Nat.mul_le_mul herror₃ (show 2 ^ u ≤ 8 by omega)).trans (by norm_num)
  · rw [Nearer]
    dsimp only
    rw [abs_shift]
    push_cast
    rw [mul_div_right_comm (c.error : ℚ)]
    exact mul_lt_mul_of_pos_right hscaled (by positivity)

end S4LibLite

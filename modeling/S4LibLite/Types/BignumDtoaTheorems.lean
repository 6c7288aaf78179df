import S4LibLite.Types.BignumPower
import S4LibLite.Types.PowerEstimates
import Mathlib.Data.Nat.Prime.Basic
import Mathlib.Tactic.NormNum.GCD

/-!
# Digits by exact arithmetic are correctly rounded

The quotient the digits are divided out of lies between one and ten after one correction, and every
division is exact.

* `spec_initialScaledStartValues`, `spec_fixupMultiply10`, what is set up;
* `spec_countedLoop`, `roundedDigits_generateCountedDigits`, the digits;
* `roundedDigits_bignumDtoa`, `fixedText_bignumDtoa`, every finite number above zero is rounded
  correctly, to digits counted from the first or behind the point.
-/

namespace S4LibLite

open Bignum Rounding

/-! ## The quotient -/

theorem spec_powerOfTen {p : ℕ} (hp : p ≤ 400) :
    (assignPowerUInt16 10 p).Valid ∧ (assignPowerUInt16 10 p).value = 10 ^ p := by
  refine spec_assignPowerUInt16 (by norm_num) (by norm_num) ?_
  calc (10 : ℕ) ^ p ≤ 16 ^ p := Nat.pow_le_pow_left (by norm_num) p
    _ = 2 ^ (4 * p) := by rw [pow_mul]; norm_num
    _ < 2 ^ kMaxSignificantBits := Nat.pow_lt_pow_right (by norm_num) (by
        rw [kMaxSignificantBits]
        omega)

theorem zpow_toNat (b : ℚ) {x : ℤ} (h : 0 ≤ x) : b ^ x = b ^ x.toNat := by
  rw [← zpow_natCast, Int.toNat_of_nonneg h]

theorem zpow_neg_toNat (b : ℚ) {x : ℤ} (h : x ≤ 0) : b ^ x = (b ^ (-x).toNat)⁻¹ := by
  rw [← zpow_toNat b (Int.neg_nonneg_of_nonpos h), zpow_neg, inv_inv]

/-- The numerator and the denominator are `f * 2 ^ e`, divided by the estimated power of ten. -/
theorem spec_initialScaledStartValues {f : ℕ} {e est : ℤ} (hf : f < 2 ^ 64)
    (hmin : -400 ≤ est) (hmax : est ≤ 400) (hsign : 0 ≤ e → 0 ≤ est) :
    (initialScaledStartValues f e est).1.Valid ∧ (initialScaledStartValues f e est).2.Valid
      ∧ 0 < (initialScaledStartValues f e est).2.value
      ∧ ((initialScaledStartValues f e est).1.value : ℚ)
        = f * 2 ^ e / 10 ^ est * (initialScaledStartValues f e est).2.value := by
  have hvalid := valid_assignUInt64 f
  have hvalue := value_assignUInt64 hf
  rw [initialScaledStartValues]
  split
  · rename_i he
    obtain ⟨hpower, hten⟩ := @spec_powerOfTen est.toNat (by omega)
    refine ⟨valid_shiftLeft hvalid _, hpower, by rw [hten]; positivity, ?_⟩
    rw [value_shiftLeft hvalid, hvalue, hten, zpow_toNat 2 he, zpow_toNat 10 (hsign he)]
    push_cast
    field_simp
  split
  · rename_i he hest
    obtain ⟨hpower, hten⟩ := @spec_powerOfTen est.toNat (by omega)
    refine ⟨hvalid, valid_shiftLeft hpower _, ?_, ?_⟩
    · rw [value_shiftLeft hpower, hten]
      positivity
    · rw [value_shiftLeft hpower, hvalue, hten, zpow_neg_toNat 2 (show e ≤ 0 by omega),
        zpow_toNat 10 hest]
      push_cast
      field_simp
  · rename_i he hest
    obtain ⟨hpower, hten⟩ := @spec_powerOfTen (-est).toNat (by omega)
    have hone : (assignUInt16 1).Valid := valid_assignUInt16 (by norm_num)
    refine ⟨valid_multiplyByUInt64 hpower hf, valid_shiftLeft hone _, ?_, ?_⟩
    · rw [value_shiftLeft hone, value_assignUInt16]
      positivity
    · rw [value_multiplyByUInt64 hpower hf, value_shiftLeft hone, value_assignUInt16, hten,
        zpow_neg_toNat 2 (show e ≤ 0 by omega), zpow_neg_toNat 10 (show est ≤ 0 by omega)]
      push_cast
      field_simp

/-- A power of five has not fifty-three bits. -/
theorem pow_five_not_between (m : ℕ) (hlow : 2 ^ 52 ≤ 5 ^ m) : 2 ^ 53 ≤ 5 ^ m := by
  rcases Nat.lt_or_ge m 23 with hm | hm
  · have hle : 5 ^ m ≤ 5 ^ 22 := Nat.pow_le_pow_right (by norm_num) (Nat.le_of_lt_succ hm)
    exact absurd (hlow.trans hle) (by norm_num)
  · exact le_trans (by norm_num) (Nat.pow_le_pow_right (show 0 < 5 by norm_num) hm)

/-- A double that is a power of ten has an even significand, so that the comparison in
`FixupMultiply10` does not go wrong on it. -/
theorem even_of_eq_pow_ten {f : ℕ} {e k : ℤ} (hlow : 0 ≤ e → 2 ^ 52 ≤ f) (hhigh : f < 2 ^ 53)
    (h : (f : ℚ) * 2 ^ e = 10 ^ k) : f % 2 = 0 := by
  by_contra hodd
  have hcoprime : ∀ n : ℕ, Nat.Coprime f (2 ^ n) := fun n =>
    Nat.Coprime.pow_right n (Nat.coprime_two_right.mpr (Nat.odd_iff.mpr (by omega)))
  have hfive : ∀ m n : ℕ, Nat.Coprime (5 ^ m) (2 ^ n) := fun m n =>
    Nat.Coprime.pow m n (by norm_num)
  have hten : ∀ m : ℕ, 10 ^ m = 5 ^ m * 2 ^ m := fun m => by rw [← Nat.mul_pow]
  rcases le_or_gt 0 e with he | he
  · -- without a fraction, the significand would be a power of five
    have hk : 0 ≤ k := by
      by_contra hk
      have hle : (10 : ℚ) ^ k ≤ 10 ^ (-1 : ℤ) := zpow_le_zpow_right₀ (by norm_num) (by omega)
      have h1 : (1 : ℚ) ≤ f := by exact_mod_cast (show 1 ≤ f by have := hlow he; omega)
      have h2 : (1 : ℚ) ≤ 2 ^ e := one_le_zpow₀ (by norm_num) he
      rw [← h] at hle
      norm_num at hle
      nlinarith
    rw [zpow_toNat 2 he, zpow_toNat 10 hk] at h
    have hnat : f * 2 ^ e.toNat = 5 ^ k.toNat * 2 ^ k.toNat := by
      rw [← hten]
      exact_mod_cast h
    have hdvd : f ∣ 5 ^ k.toNat :=
      (hcoprime _).dvd_of_dvd_mul_right (Dvd.intro _ hnat)
    have hdvd' : 5 ^ k.toNat ∣ f :=
      (hfive _ e.toNat).dvd_of_dvd_mul_right (Dvd.intro _ hnat.symm)
    have heq := Nat.dvd_antisymm hdvd hdvd'
    have := pow_five_not_between k.toNat (heq ▸ hlow he)
    omega
  · have he0 : (-e).toNat ≠ 0 := by omega
    rcases le_or_gt 0 k with hk | hk
    · -- the denominator's twos would have to cancel against the power of ten
      rw [zpow_neg_toNat 2 he.le, zpow_toNat 10 hk, mul_inv_eq_iff_eq_mul₀ (by positivity)] at h
      have hnat : f = 10 ^ k.toNat * 2 ^ (-e).toNat := by exact_mod_cast h
      have hdvd : 2 ∣ f := hnat ▸ Dvd.dvd.mul_left (dvd_pow_self 2 he0) _
      omega
    · rw [zpow_neg_toNat 2 he.le, zpow_neg_toNat 10 hk.le, ← div_eq_mul_inv,
        div_eq_iff (by positivity), inv_mul_eq_div, eq_div_iff (by positivity)] at h
      have hnat : f * 10 ^ (-k).toNat = 2 ^ (-e).toNat := by exact_mod_cast h
      have hdvd : 5 ∣ 2 ^ (-e).toNat := by
        rw [← hnat]
        exact Dvd.dvd.mul_left ((show 5 ∣ 10 by norm_num).trans
          (dvd_pow_self 10 (show (-k).toNat ≠ 0 by omega))) _
      exact absurd (Nat.prime_five.dvd_of_dvd_pow hdvd) (by norm_num)

/-- After the correction the quotient lies between one and ten. -/
theorem spec_fixupMultiply10 {est : ℤ} {isEven : Bool} {numerator denominator : Bignum}
    (hn : numerator.Valid) (hd : denominator.Valid)
    (heven : numerator.value = denominator.value → isEven = true)
    (hlow : denominator.value ≤ numerator.value * 10)
    (hhigh : numerator.value < denominator.value * 10) :
    (fixupMultiply10 est isEven numerator denominator).2.Valid
      ∧ denominator.value ≤ (fixupMultiply10 est isEven numerator denominator).2.value
      ∧ (fixupMultiply10 est isEven numerator denominator).2.value < denominator.value * 10
      ∧ ((fixupMultiply10 est isEven numerator denominator).2.value : ℚ)
          * 10 ^ ((fixupMultiply10 est isEven numerator denominator).1 - 1)
        = numerator.value * 10 ^ est := by
  have hrange : (if isEven then decide (plusCompare numerator zero denominator ≥ 0)
      else decide (plusCompare numerator zero denominator > 0))
      = decide (denominator.value ≤ numerator.value) := by
    rw [plusCompare_eq_sign hn valid_zero hd, value_zero, Nat.add_zero]
    split
    · rw [decide_eq_decide, ge_iff_le, Int.sign_nonneg_iff]
      omega
    · rename_i hodd
      have hne : numerator.value ≠ denominator.value := fun h => hodd (heven h)
      rw [decide_eq_decide, gt_iff_lt, Int.sign_pos_iff]
      omega
  rw [fixupMultiply10, hrange]
  by_cases hle : denominator.value ≤ numerator.value
  · rw [if_pos (decide_eq_true hle)]
    exact ⟨hn, hle, hhigh, by rw [add_sub_cancel_right]⟩
  · rw [if_neg (by simpa using hle)]
    refine ⟨valid_times10 hn, ?_, ?_, ?_⟩
    · rwa [value_times10]
    · rw [value_times10]
      omega
    · rw [value_times10, Nat.cast_mul, mul_assoc, Nat.cast_ofNat, ← zpow_one_add₀ (by norm_num)]
      congr 2
      ring

/-! ## The digits -/

theorem divideModulo_digit {a other : Bignum} (ha : a.Valid) (hother : other.Valid)
    (hlt : a.value < other.value * 10) :
    (a.divideModuloIntBignum other).1.Valid
      ∧ (a.divideModuloIntBignum other).1.value = a.value % other.value
      ∧ (a.divideModuloIntBignum other).2 = a.value / other.value
      ∧ (a.divideModuloIntBignum other).2 < 10 := by
  have hpos : 0 < other.value := by omega
  obtain ⟨hvalid, hmod, hdiv, -⟩ := spec_divideModuloIntBignum ha hother hpos
  have hdigit : a.value / other.value < 10 := Nat.div_lt_of_lt_mul hlt
  rw [Nat.mod_eq_of_lt (by omega)] at hdiv
  exact ⟨hvalid, hmod, hdiv, hdiv ▸ hdigit⟩

/-- The digits that have been divided out and what is left are the numerator. -/
theorem spec_countedLoop {denominator : Bignum} (hd : denominator.Valid) (count : ℕ)
    {numerator : Bignum} (hn : numerator.Valid)
    (hlt : numerator.value < denominator.value * 10) :
    (countedLoop denominator count numerator).2.Valid
      ∧ (countedLoop denominator count numerator).2.value < denominator.value * 10
      ∧ (countedLoop denominator count numerator).1.length = count
      ∧ (∀ d ∈ (countedLoop denominator count numerator).1, isDigit d = true)
      ∧ numerator.value * 10 ^ count
        = denominator.value * (10 * decVal (countedLoop denominator count numerator).1)
          + (countedLoop denominator count numerator).2.value := by
  induction count generalizing numerator with
  | zero =>
    refine ⟨hn, hlt, rfl, fun d hd => absurd hd List.not_mem_nil, ?_⟩
    rw [countedLoop, decVal_nil, pow_zero, Nat.mul_one, Nat.mul_zero, Nat.zero_add]
  | succ count ih =>
    obtain ⟨hvalid, hmod, hdiv, hdigit⟩ := divideModulo_digit hn hd hlt
    have hleft := Nat.mod_lt numerator.value (show 0 < denominator.value by omega)
    have hsplit := Nat.div_add_mod numerator.value denominator.value
    obtain ⟨h1, h2, h3, h4, h5⟩ := ih (valid_times10 hvalid) (by
      rw [value_times10, hmod]
      omega)
    rw [countedLoop]
    dsimp only
    refine ⟨h1, h2, by rw [List.length_cons, h3], ?_, ?_⟩
    · intro d hd
      rcases List.mem_cons.mp hd with rfl | hd
      · exact isDigit_digitChar hdigit
      · exact h4 d hd
    · rw [value_times10, hmod] at h5
      rw [decVal_cons, h3, digitVal_digitChar hdigit, hdiv]
      calc numerator.value * 10 ^ (count + 1)
          = (denominator.value * (numerator.value / denominator.value)
              + numerator.value % denominator.value) * 10 ^ (count + 1) := by rw [hsplit]
        _ = denominator.value * (numerator.value / denominator.value) * 10 ^ (count + 1)
              + numerator.value % denominator.value * 10 * 10 ^ count := by rw [pow_succ]; ring
        _ = _ := by rw [h5, pow_succ]; ring

/-- The first digit of a quotient that is one or more. -/
theorem head?_countedLoop {numerator denominator : Bignum} (hn : numerator.Valid)
    (hd : denominator.Valid) (hlow : denominator.value ≤ numerator.value)
    (hhigh : numerator.value < denominator.value * 10) (count : ℕ) :
    (countedLoop denominator count numerator).1.head? ≠ some 48 := by
  cases count with
  | zero => exact Option.some_ne_none _ |>.symm
  | succ count =>
    obtain ⟨-, -, hdiv, hdigit⟩ := divideModulo_digit hn hd hhigh
    rw [countedLoop, List.head?_cons]
    refine fun h => digitChar_ne_zero_char ?_ hdigit.le (Option.some.inj h)
    rw [hdiv]
    exact Nat.div_pos hlow (by omega)

/-- The digits of a quotient between one and ten are its rounded digits. -/
theorem roundedDigits_generateCountedDigits {count : ℕ} {numerator denominator : Bignum}
    (decimalPoint : ℤ) (hcount : 0 < count) (hn : numerator.Valid) (hd : denominator.Valid)
    (hlow : denominator.value ≤ numerator.value)
    (hhigh : numerator.value < denominator.value * 10) :
    RoundedDigits count (numerator.value / denominator.value * 10 ^ (decimalPoint - 1))
      (generateCountedDigits count decimalPoint numerator denominator).1
      (generateCountedDigits count decimalPoint numerator denominator).2 := by
  obtain ⟨m, rfl⟩ : ∃ m, count = m + 1 := ⟨count - 1, by omega⟩
  have hpos : 0 < denominator.value := by omega
  obtain ⟨hvalid, hlt, hlen, hdigits, hvalue⟩ := spec_countedLoop hd m hn hhigh
  have hhead := head?_countedLoop hn hd hlow hhigh m
  rw [generateCountedDigits, Nat.add_sub_cancel]
  generalize countedLoop denominator m numerator = counted at *
  obtain ⟨hvalid', hmod, hdiv, hdigit⟩ := divideModulo_digit hvalid hd hlt
  rw [hdiv] at hdigit
  have hup : plusCompare (counted.2.divideModuloIntBignum denominator).1
      (counted.2.divideModuloIntBignum denominator).1 denominator ≥ 0
      ↔ denominator.value ≤ 2 * (counted.2.value % denominator.value) := by
    rw [plusCompare_eq_sign hvalid' hvalid' hd, hmod, ge_iff_le, Int.sign_nonneg_iff]
    omega
  have hround : (if plusCompare (counted.2.divideModuloIntBignum denominator).1
          (counted.2.divideModuloIntBignum denominator).1 denominator ≥ 0
        then (counted.2.divideModuloIntBignum denominator).2 + 1
        else (counted.2.divideModuloIntBignum denominator).2)
      = counted.2.value / denominator.value
        + if denominator.value ≤ 2 * (counted.2.value % denominator.value) then 1 else 0 := by
    rw [hdiv, if_congr hup rfl rfl]
    split <;> rfl
  dsimp only
  rw [hround]
  generalize hlast : counted.2.value / denominator.value
      + (if denominator.value ≤ 2 * (counted.2.value % denominator.value) then 1 else 0) = last
  have hlast10 : last ≤ 10 := by
    split at hlast <;> omega
  have hchar : digitVal (digitChar last) = last
      ∧ (isDigit (digitChar last) = true ∨ digitChar last = 58) := by
    rcases Nat.lt_or_eq_of_le hlast10 with h | rfl
    · exact ⟨digitVal_digitChar h, Or.inl (isDigit_digitChar h)⟩
    · exact ⟨rfl, Or.inr rfl⟩
  have hD : decVal (counted.1 ++ [digitChar last]) = decVal counted.1 * 10 + last := by
    rw [decVal_append_singleton, hchar.1]
  have hx : (decVal (counted.1 ++ [digitChar last]) : ℤ)
      = round ((numerator.value * 10 ^ m : ℕ) / (denominator.value : ℚ)) := by
    rw [round_div _ hpos, hD, ← hlast, hvalue, Nat.mul_add_mod, Nat.mul_add_div hpos]
    push_cast
    ring
  have hnear := round_eq_iff.mp hx.symm
  have hscale : (numerator.value / denominator.value : ℚ) * 10 ^ (decimalPoint - 1)
      = (numerator.value * 10 ^ m : ℕ) / (denominator.value : ℚ) * 10 ^ (decimalPoint - 1 - m) := by
    rw [zpow_sub₀ (by norm_num) (decimalPoint - 1) m, zpow_natCast]
    push_cast
    field_simp
  have hfinal := @roundedDigits_propagateCarry counted.1 (digitChar last) _ (decimalPoint - 1 - m)
    hdigits hchar.2 ?_ (by exact_mod_cast hnear) ?_
  · rw [hlen] at hfinal
    rw [hscale]
    convert hfinal using 2
    ring
  · rw [List.head?_append]
    cases hcounted : counted.1 with
    | nil =>
      -- the only digit is the quotient, or one more
      rw [← hlen, hcounted, decVal_nil] at hvalue
      have hge : 1 ≤ counted.2.value / denominator.value := by
        rw [Nat.le_div_iff_mul_le hpos]
        simp only [List.length_nil, pow_zero] at hvalue
        omega
      exact fun h => digitChar_ne_zero_char (show 0 < last by omega) hlast10 (Option.some.inj h)
    | cons d ds =>
      rw [hcounted] at hhead
      exact hhead
  · intro _
    rw [hlen, le_div_iff₀ (by exact_mod_cast hpos)]
    have : (denominator.value : ℚ) ≤ numerator.value := by exact_mod_cast hlow
    push_cast
    nlinarith [show (0 : ℚ) < 10 ^ m by positivity]

/-! ## The number -/

/-- The number is a quotient between one and ten, times a power of ten. -/
structure Scaled (v : ℚ) (decimalPoint : ℤ) (numerator denominator : Bignum) : Prop where
  numerator_valid : numerator.Valid
  denominator_valid : denominator.Valid
  low : denominator.value ≤ numerator.value
  high : numerator.value < denominator.value * 10
  value_eq : (numerator.value / denominator.value : ℚ) * 10 ^ (decimalPoint - 1) = v

theorem Scaled.denominator_pos {v : ℚ} {decimalPoint : ℤ} {numerator denominator : Bignum}
    (h : Scaled v decimalPoint numerator denominator) : (0 : ℚ) < denominator.value := by
  have := h.low
  have := h.high
  exact_mod_cast (show 0 < denominator.value by omega)

theorem Scaled.bounds {v : ℚ} {decimalPoint : ℤ} {numerator denominator : Bignum}
    (h : Scaled v decimalPoint numerator denominator) :
    (10 : ℚ) ^ (decimalPoint - 1) ≤ v ∧ v < 10 ^ decimalPoint := by
  have hden := h.denominator_pos
  have hten := zpow_pos (show (0 : ℚ) < 10 by norm_num) (decimalPoint - 1)
  have hlow : (denominator.value : ℚ) ≤ numerator.value := by exact_mod_cast h.low
  have hhigh : (numerator.value : ℚ) < 10 * denominator.value := by
    rw [mul_comm]
    exact_mod_cast h.high
  rw [← h.value_eq]
  constructor
  · exact le_mul_of_one_le_left hten.le ((one_le_div hden).mpr hlow)
  · calc _ < 10 * (10 : ℚ) ^ (decimalPoint - 1) :=
        mul_lt_mul_of_pos_right ((div_lt_iff₀ hden).mpr hhigh) hten
      _ = 10 ^ decimalPoint := by
        rw [← zpow_one_add₀ (by norm_num), add_sub_cancel]

/-- Estimated, set up and corrected. -/
theorem spec_scaled {v : Double} (hfinite : v.isSpecial = false) (hpos : 0 < v.significand)
    {est : ℤ} (hest : est = estimatePower (normalizedExponent v.significand v.exponent))
    {start : Bignum × Bignum}
    (hstart : start = initialScaledStartValues v.significand v.exponent est) :
    Scaled v.magnitude (fixupMultiply10 est (v.significand % 2 == 0) start.1 start.2).1
        (fixupMultiply10 est (v.significand % 2 == 0) start.1 start.2).2 start.2
      ∧ v.magnitude < 10 ^ (est + 1) := by
  have hf := v.significand_lt
  have hemin := v.exponent_ge
  have hemax := v.exponent_le hfinite
  obtain ⟨s, hs, hloop, hlow, hhigh⟩ := normalizeLoop_spec hpos hf v.exponent
  have hexp : normalizedExponent v.significand v.exponent = v.exponent - s := by
    rw [normalizedExponent_eq, hloop]
  obtain ⟨hbelow, habove, hmin, hmax⟩ :=
    estimatePower_spec (show -1126 ≤ v.exponent - s by omega) (by omega)
  rw [← hexp] at hbelow habove hmin hmax
  rw [← hest] at hbelow habove hmin hmax
  rw [hexp] at hbelow habove
  -- the number lies between the powers of two of its exponent
  have hsplit : v.magnitude = (v.significand * 2 ^ s : ℕ) * (2 : ℚ) ^ (v.exponent - s) := by
    rw [Double.magnitude, zpow_sub₀ (by norm_num), zpow_natCast]
    push_cast
    field_simp
  have htwo := zpow_pos (show (0 : ℚ) < 2 by norm_num) (v.exponent - s)
  have hge : (10 : ℚ) ^ (est - 1) ≤ v.magnitude := by
    refine hbelow.trans ?_
    rw [hsplit, add_comm, zpow_add₀ (by norm_num)]
    exact mul_le_mul_of_nonneg_right (by exact_mod_cast hlow) htwo.le
  have hlt : v.magnitude < 10 ^ (est + 1) := by
    refine lt_of_lt_of_le ?_ habove
    rw [hsplit, add_comm, zpow_add₀ (by norm_num)]
    exact mul_lt_mul_of_pos_right (by exact_mod_cast hhigh) htwo
  have hsign : 0 ≤ v.exponent → 0 ≤ est := by
    intro he
    by_contra hest
    have h1 : (1 : ℚ) ≤ v.significand := by exact_mod_cast hpos
    have h2 : (1 : ℚ) ≤ 2 ^ v.exponent := one_le_zpow₀ (by norm_num) he
    have h3 : (10 : ℚ) ^ (est + 1) ≤ 1 := zpow_le_one_of_nonpos₀ (by norm_num) (by omega)
    rw [Double.magnitude] at hlt
    nlinarith
  obtain ⟨hvalid1, hvalid2, hden, hvalue⟩ :=
    spec_initialScaledStartValues (hf.trans (by norm_num)) hmin hmax hsign
  rw [← hstart] at hvalid1 hvalid2 hden hvalue
  rw [← Double.magnitude] at hvalue
  have hden0 : (0 : ℚ) < start.2.value := by exact_mod_cast hden
  have hten := zpow_pos (show (0 : ℚ) < 10 by norm_num) est
  have hquot : (start.1.value : ℚ) * 10 ^ est = v.magnitude * start.2.value := by
    rw [hvalue]
    field_simp
  rw [zpow_sub_one₀ (by norm_num)] at hge
  have hlt' := hlt
  rw [zpow_add_one₀ (by norm_num)] at hlt
  have hten1 : start.2.value ≤ start.1.value * 10 := by
    have : (start.2.value : ℚ) ≤ start.1.value * 10 := by nlinarith
    exact_mod_cast this
  have hten2 : start.1.value < start.2.value * 10 := by
    have : (start.1.value : ℚ) < start.2.value * 10 := by nlinarith
    exact_mod_cast this
  have heven : start.1.value = start.2.value → (v.significand % 2 == 0) = true := by
    intro heq
    rw [heq, mul_comm] at hquot
    have hmag := mul_right_cancel₀ hden0.ne' hquot
    rw [beq_iff_eq]
    refine even_of_eq_pow_ten (fun he => ?_) hf hmag.symm
    by_contra hsmall
    rw [Double.exponent_of_significand_lt (by omega)] at he
    exact absurd he (by norm_num)
  obtain ⟨h1, h2, h3, h4⟩ := spec_fixupMultiply10 hvalid1 hvalid2 heven hten1 hten2
  refine ⟨⟨h1, hvalid2, h2, h3, ?_⟩, hlt'⟩
  rw [div_mul_eq_mul_div, h4, hquot, mul_div_cancel_right₀ _ hden0.ne']

/-- Every finite number above zero is rounded correctly to any number of digits. -/
theorem roundedDigits_bignumDtoa {v : Double} (hfinite : v.isSpecial = false)
    (hpos : 0 < v.significand) {n : ℕ} (hn : 0 < n) :
    RoundedDigits n v.magnitude (bignumDtoa v .precision n).1 (bignumDtoa v .precision n).2 := by
  obtain ⟨hscaled, -⟩ := spec_scaled hfinite hpos rfl rfl
  rw [bignumDtoa]
  dsimp only
  rw [if_neg fun h => absurd h.1 (by decide)]
  generalize initialScaledStartValues v.significand v.exponent _ = start at *
  generalize fixupMultiply10 _ (v.significand % 2 == 0) start.1 start.2 = scaled at *
  rw [← hscaled.value_eq]
  exact roundedDigits_generateCountedDigits scaled.1 hn hscaled.numerator_valid
    hscaled.denominator_valid hscaled.low hscaled.high

/-- A number below a tenth of the last digit has no digits. -/
theorem fixedText_nil_of_lt {v : ℚ} {x : ℤ} {n : ℕ} (hv : 0 ≤ v) (hlt : v < 10 ^ x)
    (hx : x ≤ -n - 1) : FixedText n v [] (-n) := by
  refine fixedText_nil hv ?_
  have hpow : v < 10 ^ (-(n : ℤ) - 1) :=
    hlt.trans_le (zpow_le_zpow_right₀ (by norm_num) hx)
  rw [zpow_sub_one₀ (by norm_num), zpow_neg, zpow_natCast, ← mul_inv,
    ← one_div, lt_div_iff₀ (by positivity)] at hpow
  linarith

/-- A quotient, rounded at a digit behind the point. -/
theorem fixedText_bignumToFixed {v : ℚ} {decimalPoint : ℤ} {numerator denominator : Bignum}
    (h : Scaled v decimalPoint numerator denominator) (n : ℕ) :
    FixedText n v (bignumToFixed n decimalPoint numerator denominator).1
      (bignumToFixed n decimalPoint numerator denominator).2 := by
  obtain ⟨hlow, hhigh⟩ := h.bounds
  have hv : 0 < v := (zpow_pos (by norm_num) _).trans_le hlow
  have hden := h.denominator_pos
  rw [bignumToFixed]
  split
  · rename_i hsmall
    exact fixedText_nil_of_lt hv.le hhigh (by omega)
  split
  · -- the only digit is the one that rounding makes
    rename_i hlast
    obtain rfl : decimalPoint = -n := by omega
    have hup : plusCompare numerator numerator denominator.times10 ≥ 0 ↔ 1 / 2 ≤ v * 10 ^ n := by
      rw [plusCompare_eq_sign h.numerator_valid h.numerator_valid
          (valid_times10 h.denominator_valid), value_times10, ge_iff_le, Int.sign_nonneg_iff,
        ← h.value_eq, zpow_sub_one₀ (by norm_num), zpow_neg, zpow_natCast]
      have hscale : (numerator.value / denominator.value * ((10 ^ n)⁻¹ * 10⁻¹) * 10 ^ n : ℚ)
          = numerator.value / (denominator.value * 10) := by
        field_simp
      rw [hscale, le_div_iff₀ (by linarith), sub_nonneg, Nat.cast_le, ← @Nat.cast_le ℚ]
      push_cast
      constructor <;> intro <;> linarith
    split
    · rename_i hge
      rw [hup] at hge
      rw [zpow_neg, zpow_natCast, ← one_div, lt_div_iff₀ (by positivity)] at hhigh
      have hround : round (v * 10 ^ n) = 1 := round_eq_iff.mpr (by
        rw [Int.cast_one]
        exact ⟨by linarith, by linarith⟩)
      refine ⟨⟨fun d hd => ?_, by simp, ?_⟩, by simp, fun hnil =>
        absurd hnil (List.cons_ne_nil _ _)⟩
      · rw [List.mem_singleton.mp hd]
        rfl
      · dsimp only
        rw [hround, show decVal [49] = 1 from rfl, List.length_singleton, Int.cast_one,
          Nat.cast_one, one_mul, Nat.cast_one, show -(n : ℤ) + 1 - 1 = -n by ring, zpow_neg,
          zpow_natCast, one_div]
    · rename_i hlt
      rw [hup, not_le] at hlt
      exact fixedText_nil hv.le hlt
  · rename_i hsmall hlast
    have hlog : Int.log 10 v = decimalPoint - 1 :=
      log_eq (by norm_num) (by exact_mod_cast hlow) (by
        rw [sub_add_cancel]
        exact_mod_cast hhigh)
    refine @RoundedDigits.fixedText (decimalPoint + n).toNat _ _ _ hv (by omega) n ?_ ?_
    · rw [hlog]
      omega
    · rw [← h.value_eq]
      exact roundedDigits_generateCountedDigits decimalPoint (by omega) h.numerator_valid
        h.denominator_valid h.low h.high

/-- Every finite number above zero is rounded correctly at any digit behind the point. -/
theorem fixedText_bignumDtoa {v : Double} (hfinite : v.isSpecial = false)
    (hpos : 0 < v.significand) (n : ℕ) :
    FixedText n v.magnitude (bignumDtoa v .fixed n).1 (bignumDtoa v .fixed n).2 := by
  obtain ⟨hscaled, hlt⟩ := spec_scaled hfinite hpos rfl rfl
  rw [bignumDtoa]
  dsimp only
  split
  · rename_i hsmall
    exact fixedText_nil_of_lt (v.magnitude_pos_iff.mpr hpos).le hlt (by omega)
  · exact fixedText_bignumToFixed hscaled n

end S4LibLite

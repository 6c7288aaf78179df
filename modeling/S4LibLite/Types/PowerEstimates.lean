import S4LibLite.Types.CachedPowers

/-!
# What the estimates of a power of ten are worth (`bignum-dtoa.cc`, `cached-powers.cc`)

`EstimatePower` and `GetCachedPowerForBinaryExponentRange` compute in doubles. There are no more
exponents than a double has, so they are checked for each of them, in natural numbers: the estimate
against the powers of two that enclose the numbers of that exponent, and every cached power against
the power of ten it stands for.

* `normalizeLoop_spec`, the hidden bit brought up;
* `estimatePower_spec`, the estimate is off by one at most;
* `cachedPower_spec`, the power that is chosen, its accuracy and the exponent of the product.
-/

namespace S4LibLite

/-! ## Normalizing -/

/-- The shifts that bring the hidden bit up. -/
theorem normalizeLoop_spec {f : ℕ} (hpos : 0 < f) (hlt : f < 2 ^ 53) (e : ℤ) :
    ∃ s : ℕ, s ≤ 52 ∧ normalizeLoop f e = ⟨f * 2 ^ s, e - s⟩
      ∧ 2 ^ 52 ≤ f * 2 ^ s ∧ f * 2 ^ s < 2 ^ 53 := by
  suffices h : ∃ s : ℕ, normalizeLoop f e = ⟨f * 2 ^ s, e - s⟩
      ∧ 2 ^ 52 ≤ f * 2 ^ s ∧ f * 2 ^ s < 2 ^ 53 by
    obtain ⟨s, hloop, hlow, hhigh⟩ := h
    refine ⟨s, Nat.le_of_not_lt fun hs => ?_, hloop, hlow, hhigh⟩
    have hpow : 2 ^ 53 ≤ 2 ^ s := Nat.pow_le_pow_right (by norm_num) hs
    exact absurd (hpow.trans (Nat.le_mul_of_pos_left _ hpos)) (Nat.not_le_of_lt hhigh)
  fun_induction normalizeLoop f e with
  | case1 f e h ih =>
    rw [kHiddenBit] at h
    obtain ⟨s, hloop, hlow, hhigh⟩ := ih (by omega) (by omega)
    have hsucc : f * 2 ^ (s + 1) = f * 2 * 2 ^ s := by
      rw [pow_succ]
      ring
    refine ⟨s + 1, ?_, by rwa [hsucc], by rwa [hsucc]⟩
    rw [hloop, hsucc, Nat.cast_succ, show e - 1 - (s : ℤ) = e - (s + 1) by ring]
  | case2 f e h =>
    rw [kHiddenBit] at h
    exact ⟨0, by simp, by rw [pow_zero, Nat.mul_one]; omega, by rwa [pow_zero, Nat.mul_one]⟩

/-- The loop of `bignum-dtoa.cc` counts the shifts only. -/
theorem normalizedExponent_eq (f : ℕ) (e : ℤ) : normalizedExponent f e = (normalizeLoop f e).e := by
  fun_induction normalizedExponent f e with
  | case1 f e h ih => rw [ih, normalizeLoop.eq_1 f, if_pos h]
  | case2 f e h => rw [normalizeLoop, if_neg h]

/-! ## Powers, compared in natural numbers -/

/-- `b ^ x ≤ c ^ y`. -/
def powLe (b : ℕ) (x : ℤ) (c : ℕ) (y : ℤ) : Bool :=
  Nat.ble (b ^ x.toNat * c ^ (-y).toNat) (c ^ y.toNat * b ^ (-x).toNat)

/-- A power as a fraction of natural numbers. -/
theorem zpow_eq_div {b : ℕ} (hb : 0 < b) (x : ℤ) :
    (b : ℚ) ^ x = (b ^ x.toNat : ℕ) / (b ^ (-x).toNat : ℕ) := by
  have hb0 : (b : ℚ) ≠ 0 := by exact_mod_cast hb.ne'
  rw [← Int.toNat_sub_toNat_neg x, zpow_sub₀ hb0, zpow_natCast, zpow_natCast,
    Int.toNat_sub_toNat_neg x, Nat.cast_pow, Nat.cast_pow]

/-- What `powLe` answers holds of the powers. -/
theorem zpow_le_of_powLe {b c : ℕ} {x y : ℤ} (hb : 0 < b) (hc : 0 < c)
    (h : powLe b x c y = true) : (b : ℚ) ^ x ≤ (c : ℚ) ^ y := by
  rw [zpow_eq_div hb, zpow_eq_div hc, div_le_div_iff₀ (by positivity) (by positivity)]
  exact_mod_cast Nat.le_of_ble_eq_true h

/-! ## The estimate -/

/-- The estimate for an exponent, between the powers of ten below and above its numbers. -/
def estimateOk (e : ℤ) : Bool :=
  powLe 10 (estimatePower e - 1) 2 (e + 52) && powLe 2 (e + 53) 10 (estimatePower e + 1)
    && decide (-400 ≤ estimatePower e) && decide (estimatePower e ≤ 400)

theorem estimateOk_all : (List.range 2098).all (fun i => estimateOk (i - 1126)) = true := by
  decide +kernel

/-- A number `f * 2 ^ e` of fifty-three bits lies between the powers of ten below the estimate and
above it. -/
theorem estimatePower_spec {e : ℤ} (hlow : -1126 ≤ e) (hhigh : e ≤ 971) :
    (10 : ℚ) ^ (estimatePower e - 1) ≤ 2 ^ (e + 52)
      ∧ (2 : ℚ) ^ (e + 53) ≤ 10 ^ (estimatePower e + 1)
      ∧ -400 ≤ estimatePower e ∧ estimatePower e ≤ 400 := by
  have hcheck := List.all_eq_true.mp estimateOk_all (e + 1126).toNat
    (List.mem_range.mpr (by omega))
  rw [show (((e + 1126).toNat : ℕ) : ℤ) - 1126 = e by omega] at hcheck
  simp only [estimateOk, Bool.and_eq_true, decide_eq_true_eq] at hcheck
  obtain ⟨⟨⟨hbelow, habove⟩, hmin⟩, hmax⟩ := hcheck
  exact ⟨zpow_le_of_powLe (by norm_num) (by norm_num) hbelow,
    zpow_le_of_powLe (by norm_num) (by norm_num) habove, hmin, hmax⟩

/-! ## The cached powers -/

/-- A cached power has its highest bit set and is the power of ten but for half a unit of its last
place. -/
def cachedPowerOk (c : CachedPower) : Bool :=
  let power := c.significand * 2 ^ c.binaryExponent.toNat * 10 ^ (-c.decimalExponent).toNat
  let ten := 10 ^ c.decimalExponent.toNat * 2 ^ (-c.binaryExponent).toNat
  let unit := 2 ^ c.binaryExponent.toNat * 10 ^ (-c.decimalExponent).toNat
  Nat.ble (2 ^ 63) c.significand && Nat.blt c.significand (2 ^ 64)
    && Nat.ble (2 * ten) (2 * power + unit) && Nat.ble (2 * power) (2 * ten + unit)

theorem cachedPowerOk_all : kCachedPowers.all cachedPowerOk = true := by decide +kernel

/-- The accuracy of a cached power. -/
theorem accuracy_of_cachedPowerOk {c : CachedPower} (h : cachedPowerOk c = true) :
    2 ^ 63 ≤ c.significand ∧ c.significand < 2 ^ 64
      ∧ |(10 : ℚ) ^ c.decimalExponent / 2 ^ c.binaryExponent - c.significand| ≤ 1 / 2 := by
  simp only [cachedPowerOk, Bool.and_eq_true, Nat.ble_eq, Nat.blt_eq] at h
  obtain ⟨⟨⟨hlow, hhigh⟩, hbelow⟩, habove⟩ := h
  refine ⟨hlow, hhigh, ?_⟩
  have hten : (10 : ℚ) ^ c.decimalExponent
      = (10 ^ c.decimalExponent.toNat : ℕ) / (10 ^ (-c.decimalExponent).toNat : ℕ) :=
    zpow_eq_div (show 0 < 10 by norm_num) _
  have htwo : (2 : ℚ) ^ c.binaryExponent
      = (2 ^ c.binaryExponent.toNat : ℕ) / (2 ^ (-c.binaryExponent).toNat : ℕ) :=
    zpow_eq_div (show 0 < 2 by norm_num) _
  have hunit : (0 : ℚ) < 2 ^ c.binaryExponent.toNat * 10 ^ (-c.decimalExponent).toNat := by
    positivity
  have hquot : (10 : ℚ) ^ c.decimalExponent / 2 ^ c.binaryExponent
      = 10 ^ c.decimalExponent.toNat * 2 ^ (-c.binaryExponent).toNat
        / (2 ^ c.binaryExponent.toNat * 10 ^ (-c.decimalExponent).toNat) := by
    rw [hten, htwo]
    push_cast
    field_simp
  have hbelow' : (2 * (10 ^ c.decimalExponent.toNat * 2 ^ (-c.binaryExponent).toNat) : ℚ)
      ≤ 2 * (c.significand * 2 ^ c.binaryExponent.toNat * 10 ^ (-c.decimalExponent).toNat)
        + 2 ^ c.binaryExponent.toNat * 10 ^ (-c.decimalExponent).toNat := by exact_mod_cast hbelow
  have habove' : (2 * (c.significand * 2 ^ c.binaryExponent.toNat
        * 10 ^ (-c.decimalExponent).toNat) : ℚ)
      ≤ 2 * (10 ^ c.decimalExponent.toNat * 2 ^ (-c.binaryExponent).toNat)
        + 2 ^ c.binaryExponent.toNat * 10 ^ (-c.decimalExponent).toNat := by exact_mod_cast habove
  rw [hquot, abs_le, le_sub_iff_add_le, sub_le_iff_le_add, le_div_iff₀ hunit, div_le_iff₀ hunit]
  constructor <;> nlinarith

/-- The chosen power is in the table and brings the product's exponent between -60 and -32. -/
def choiceOk (e : ℤ) : Bool :=
  let c := getCachedPowerForBinaryExponentRange (-60 - (e + 64))
  (c.significand != 0) && decide (-60 ≤ e + c.binaryExponent + 64)
    && decide (e + c.binaryExponent + 64 ≤ -32)

theorem choiceOk_all : (List.range 2098).all (fun i => choiceOk (i - 1137)) = true := by
  decide +kernel

theorem cachedPower_spec {e : ℤ} (hlow : -1137 ≤ e) (hhigh : e ≤ 960) :
    cachedPowerOk (getCachedPowerForBinaryExponentRange (-60 - (e + 64))) = true
      ∧ -60 ≤ e + (getCachedPowerForBinaryExponentRange (-60 - (e + 64))).binaryExponent + 64
      ∧ e + (getCachedPowerForBinaryExponentRange (-60 - (e + 64))).binaryExponent + 64 ≤ -32 := by
  have hcheck := List.all_eq_true.mp choiceOk_all (e + 1137).toNat
    (List.mem_range.mpr (by omega))
  rw [show (((e + 1137).toNat : ℕ) : ℤ) - 1137 = e by omega] at hcheck
  simp only [choiceOk, Bool.and_eq_true, decide_eq_true_eq, bne_iff_ne] at hcheck
  obtain ⟨⟨hne, hmin⟩, hmax⟩ := hcheck
  refine ⟨List.all_eq_true.mp cachedPowerOk_all _ ?_, hmin, hmax⟩
  rw [getCachedPowerForBinaryExponentRange] at hne ⊢
  generalize (Int.tdiv _ 8 + 1).toNat = index at hne ⊢
  rw [List.getD_eq_getElem?_getD] at hne ⊢
  cases hget : kCachedPowers[index]? with
  | none =>
    rw [hget] at hne
    exact absurd rfl hne
  | some c => exact List.mem_of_getElem? hget

end S4LibLite

import S4LibLite.Types.BinaryTheorems

/-!
# Prices (`s4type_precision.h`)

A price is an `int` number of cents; the exchanges send numbers of smaller units, and the macros
that convert them and that find the daily limits of a price go through a `double`. An `int` price
is what is left of a double without its fraction, so an error of any size could cost a cent.

* `fPriceToIPrice`, `iPriceToFPrice` and the conversions of the exchanges' units;
* `up5p` to `dn20p`, the limits;
* `fPriceToIPrice_pricedIn`, no cent is lost on the way through a double;
* `limits_exact`, the limits are rounded as in decimal arithmetic.
-/

namespace S4LibLite
namespace Precision

open Binary

/-- The conversion to `price_t`, an `int32_t`; out of range it has no value. -/
def toPriceT (a : Binary) : Option ℤ :=
  if -2 ^ 31 ≤ a.trunc ∧ a.trunc < 2 ^ 31 then some a.trunc else none

/-- `fPrice_to_iPrice`, `(price_t)((x + 0.5/100) * 100)`. -/
def fPriceToIPrice (x : Binary) : Option ℤ :=
  toPriceT (mul (add x (ofRatio 1 200)) (ofInt 100))

/-- `x * (1.0/precision)`. -/
def pricedIn (precision : ℕ) (x : ℤ) : Binary := mul (ofInt x) (ofRatio 1 precision)

/-- `iPrice_to_fPrice`. -/
def iPriceToFPrice (x : ℤ) : Binary := pricedIn 100 x

/-- `SSZ_L2_iPrice_tick_to_fPrice`. -/
def sszL2TickToFPrice (x : ℤ) : Binary := pricedIn 10000 x

/-- `SSZ_L2_iPrice_snap_to_fPrice`. -/
def sszL2SnapToFPrice (x : ℤ) : Binary := pricedIn 1000000 x

/-- `SSH_L2_iPrice_tick_to_fPrice`. -/
def sshL2TickToFPrice (x : ℤ) : Binary := pricedIn 1000 x

/-- `SSH_L2_iPrice_snap_to_fPrice`. -/
def sshL2SnapToFPrice (x : ℤ) : Binary := pricedIn 1000 x

/-- `(price_t)(x * factor + 0.5)`. -/
def limit (factor : Binary) (x : ℤ) : Option ℤ :=
  toPriceT (add (mul (ofInt x) factor) (ofRatio 1 2))

/-- `UP_5p`. -/
def up5p (x : ℤ) : Option ℤ := limit (ofRatio 105 100) x

/-- `DN_5p`. -/
def dn5p (x : ℤ) : Option ℤ := limit (ofRatio 95 100) x

/-- `UP_10p`. -/
def up10p (x : ℤ) : Option ℤ := limit (ofRatio 11 10) x

/-- `DN_10p`. -/
def dn10p (x : ℤ) : Option ℤ := limit (ofRatio 9 10) x

/-- `UP_20p`. -/
def up20p (x : ℤ) : Option ℤ := limit (ofRatio 12 10) x

/-- `DN_20p`. -/
def dn20p (x : ℤ) : Option ℤ := limit (ofRatio 8 10) x

/-! ## Limits -/

/-- `percent` hundredths of a price, rounded half up to a cent; `none` if that is no `price_t`. -/
def rounded (percent x : ℤ) : Option ℤ :=
  let n := (x * percent + 50) / 100
  if n < 2 ^ 31 then some n else none

/-- A factor that is close enough to its percentage, and hardly below it. -/
structure Factor (percent : ℤ) (factor : Binary) : Prop where
  percent_nonneg : 0 ≤ percent
  percent_le : percent ≤ 120
  mantissa_nonneg : 0 ≤ factor.mantissa
  exponent_le : factor.exponent ≤ -1
  value_le : factor.value ≤ percent / 100 + 1 / 2 ^ 52
  le_value : percent / 100 - factor.value ≤ factor.value / 2 ^ 54

theorem limit_eq {percent : ℤ} {factor : Binary} (h : Factor percent factor) {x : ℤ} (hx : 0 ≤ x)
    (hmax : x < 2 ^ 31) : limit factor x = rounded percent x := by
  have hx' : (0 : ℚ) ≤ x := by exact_mod_cast hx
  have hmax' : (x : ℚ) ≤ 2 ^ 31 := by exact_mod_cast hmax.le
  have hp' : (percent : ℚ) ≤ 120 := by exact_mod_cast h.percent_le
  have hp0 : (0 : ℚ) ≤ percent := by exact_mod_cast h.percent_nonneg
  have hfactor : 0 ≤ factor.value :=
    mul_nonneg (by exact_mod_cast h.mantissa_nonneg) (zpow_pos (by norm_num) _).le
  have hhalf : (ofRatio 1 2).value = 1 / 2 := by
    rw [show ofRatio 1 2 = ⟨2 ^ 52, -53⟩ by decide, value_mk]
    norm_num
  obtain ⟨n, hn⟩ : ∃ n, n = (x * percent + 50) / 100 := ⟨_, rfl⟩
  have hn0 : 0 ≤ n := by
    have := mul_nonneg hx h.percent_nonneg
    omega
  have hlow : (100 * n : ℚ) ≤ x * percent + 50 := by
    have : 100 * n ≤ x * percent + 50 := by omega
    exact_mod_cast this
  have hhigh : (x * percent : ℚ) + 50 ≤ 100 * n + 99 := by
    have : x * percent + 50 ≤ 100 * n + 99 := by omega
    exact_mod_cast this
  have hprod : (x : ℚ) * factor.value ≤ x * percent / 100 + 1 / 2 ^ 21 := by
    have := mul_le_mul_of_nonneg_left h.value_le hx'
    linarith
  have hbig : (x * percent : ℚ) ≤ 2 ^ 31 * 120 := mul_le_mul hmax' hp' hp0 (by positivity)
  -- the product is at least `n - 1/2`, which it is where a half cent is rounded up
  have hy : ((2 * n - 1 : ℤ) : ℚ) * 2 ^ (-1 : ℤ) ≤ (mul (ofInt x) factor).value := by
    refine le_mul hx h.mantissa_nonneg ?_ ?_ ?_
    · rw [ofInt, zero_add]
      exact h.exponent_le
    · rw [value_ofInt, zpow_neg_one]
      linarith
    · have := mul_le_mul_of_nonneg_left h.le_value hx'
      rw [value_ofInt, zpow_neg_one]
      push_cast
      linarith
  have hynear := abs_le.mp (mul_near (ofInt x) factor)
  rw [value_ofInt, abs_of_nonneg (mul_nonneg hx' hfactor)] at hynear
  rw [zpow_neg_one] at hy
  push_cast at hy
  have hz : (n : ℚ) * 2 ^ (0 : ℤ) ≤ (add (mul (ofInt x) factor) (ofRatio 1 2)).value := by
    refine le_add (mantissa_toDouble_nonneg (mul_nonneg hx h.mantissa_nonneg)) (by decide)
      ((min_le_right _ _).trans (by decide)) ?_ ?_
    · rw [hhalf, zpow_zero]
      linarith [hynear.2]
    · rw [hhalf, zpow_zero]
      linarith
  have hznear := abs_le.mp (add_near (mul (ofInt x) factor) (ofRatio 1 2))
  rw [hhalf, abs_of_nonneg (by linarith)] at hznear
  have htrunc : (add (mul (ofInt x) factor) (ofRatio 1 2)).trunc = n := by
    refine trunc_eq hn0 (by rwa [zpow_zero, mul_one] at hz) ?_
    linarith [hynear.2, hznear.2]
  rw [limit, toPriceT, rounded, htrunc, ← hn]
  congr 1
  exact propext ⟨And.right, fun hlt => ⟨by omega, hlt⟩⟩

/-- A double next to its percentage. -/
theorem factor_mk {percent m e : ℤ} (hp0 : 0 ≤ percent) (hp : percent ≤ 120) (hm : 0 ≤ m)
    (he : e ≤ -1) (hle : (m * 2 ^ e : ℚ) ≤ percent / 100 + 1 / 2 ^ 52)
    (hge : (percent : ℚ) / 100 - m * 2 ^ e ≤ m * 2 ^ e / 2 ^ 54) : Factor percent ⟨m, e⟩ :=
  ⟨hp0, hp, hm, he, hle, hge⟩

/-- **The limits of a price** are its percentages, rounded to a cent with halves up, and undefined
if they are no `price_t`. -/
theorem limits_exact {x : ℤ} (hx : 0 ≤ x) (hmax : x < 2 ^ 31) :
    up5p x = rounded 105 x ∧ dn5p x = rounded 95 x ∧ up10p x = rounded 110 x
      ∧ dn10p x = rounded 90 x ∧ up20p x = rounded 120 x ∧ dn20p x = rounded 80 x := by
  refine ⟨limit_eq ?_ hx hmax, limit_eq ?_ hx hmax, limit_eq ?_ hx hmax, limit_eq ?_ hx hmax,
    limit_eq ?_ hx hmax, limit_eq ?_ hx hmax⟩
  · rw [show ofRatio 105 100 = ⟨4728779608739021, -52⟩ by decide]
    exact factor_mk (by norm_num) (by norm_num) (by norm_num) (by norm_num) (by norm_num)
      (by norm_num)
  · rw [show ofRatio 95 100 = ⟨8556839292003942, -53⟩ by decide]
    exact factor_mk (by norm_num) (by norm_num) (by norm_num) (by norm_num) (by norm_num)
      (by norm_num)
  · rw [show ofRatio 11 10 = ⟨4953959590107546, -52⟩ by decide]
    exact factor_mk (by norm_num) (by norm_num) (by norm_num) (by norm_num) (by norm_num)
      (by norm_num)
  · rw [show ofRatio 9 10 = ⟨8106479329266893, -53⟩ by decide]
    exact factor_mk (by norm_num) (by norm_num) (by norm_num) (by norm_num) (by norm_num)
      (by norm_num)
  · rw [show ofRatio 12 10 = ⟨5404319552844595, -52⟩ by decide]
    exact factor_mk (by norm_num) (by norm_num) (by norm_num) (by norm_num) (by norm_num)
      (by norm_num)
  · rw [show ofRatio 8 10 = ⟨7205759403792794, -53⟩ by decide]
    exact factor_mk (by norm_num) (by norm_num) (by norm_num) (by norm_num) (by norm_num)
      (by norm_num)

/-- Ten percent over and under 9.95 lie halfway between two cents. -/
theorem limits_exact_995 : up5p 995 = rounded 105 995 ∧ dn5p 995 = rounded 95 995
    ∧ up10p 995 = rounded 110 995 ∧ dn10p 995 = rounded 90 995 ∧ up20p 995 = rounded 120 995
      ∧ dn20p 995 = rounded 80 995 :=
  limits_exact (by norm_num) (by norm_num)

/-! ## Conversions -/

/-- A double that is close to a number of cents; below zero one cent too many comes out, for the
conversion cuts off towards zero. -/
theorem fPriceToIPrice_near {v : Binary} {n : ℤ} (hmin : -2 ^ 31 ≤ n) (hmax : n < 2 ^ 31)
    (h : |100 * v.value - n| ≤ 1 / 2 - 1 / 10 ^ 6) :
    fPriceToIPrice v = some (if 0 ≤ n then n else n + 1) := by
  have hmin' : (-2 ^ 31 : ℚ) ≤ n := by exact_mod_cast hmin
  have hmax' : (n : ℚ) ≤ 2 ^ 31 := by exact_mod_cast hmax.le
  have hcent : (ofRatio 1 200).value = 5764607523034235 / 2 ^ 60 := by
    rw [show ofRatio 1 200 = ⟨5764607523034235, -60⟩ by decide, value_mk]
    norm_num
  have hv := abs_le.mp h
  have hsum : |(add v (ofRatio 1 200)).value - (v.value + (ofRatio 1 200).value)| ≤ 1 / 2 ^ 28 := by
    refine (add_near v (ofRatio 1 200)).trans ?_
    have : |v.value + (ofRatio 1 200).value| ≤ 2 ^ 25 := by
      rw [hcent, abs_le]
      constructor <;> linarith [hv.1, hv.2]
    linarith
  rw [hcent, abs_le] at hsum
  have hprod : |(mul (add v (ofRatio 1 200)) (ofInt 100)).value
      - (add v (ofRatio 1 200)).value * 100| ≤ 1 / 2 ^ 21 := by
    have hnear := mul_near (add v (ofRatio 1 200)) (ofInt 100)
    rw [value_ofInt, Int.cast_ofNat] at hnear
    refine hnear.trans ?_
    have : |(add v (ofRatio 1 200)).value * 100| ≤ 2 ^ 32 := by
      rw [abs_le]
      constructor <;> linarith [hv.1, hv.2, hsum.1, hsum.2]
    linarith
  rw [abs_le] at hprod
  have htrunc : (mul (add v (ofRatio 1 200)) (ofInt 100)).trunc = if 0 ≤ n then n else n + 1 := by
    split
    · rename_i hn
      refine trunc_eq hn ?_ ?_ <;> linarith [hv.1, hv.2, hsum.1, hsum.2, hprod.1, hprod.2]
    · rename_i hn
      refine trunc_eq_of_nonpos (by omega) ?_ ?_ <;> push_cast <;>
        linarith [hv.1, hv.2, hsum.1, hsum.2, hprod.1, hprod.2]
  rw [fPriceToIPrice, toPriceT, htrunc, if_pos]
  split <;> omega

theorem pricedIn_near {p : ℕ} (hp : 0 < p) (x : ℤ) :
    |(pricedIn p x).value - x / p| ≤ |(x / p : ℚ)| / 2 ^ 51 := by
  have hratio := ofRatio_near one_pos hp
  have hprod := mul_near (ofInt x) (ofRatio 1 p)
  rw [value_ofInt] at hprod
  rw [Nat.cast_one] at hratio
  have hexact : |(x : ℚ) * (ofRatio 1 p).value - x / p| ≤ |(x / p : ℚ)| / 2 ^ 53 := by
    rw [div_eq_mul_one_div (x : ℚ) (p : ℚ), ← mul_sub, abs_mul, abs_mul, mul_div_assoc]
    refine mul_le_mul_of_nonneg_left ?_ (abs_nonneg _)
    rwa [abs_of_nonneg (show (0 : ℚ) ≤ 1 / p by positivity)]
  have hsize : |(x : ℚ) * (ofRatio 1 p).value| ≤ 2 * |(x / p : ℚ)| := by
    have := abs_sub_abs_le_abs_sub ((x : ℚ) * (ofRatio 1 p).value) (x / p)
    have := abs_nonneg (x / p : ℚ)
    linarith
  rw [pricedIn]
  calc |(mul (ofInt x) (ofRatio 1 p)).value - x / p|
      ≤ |(mul (ofInt x) (ofRatio 1 p)).value - x * (ofRatio 1 p).value|
        + |(x : ℚ) * (ofRatio 1 p).value - x / p| := abs_sub_le _ _ _
    _ ≤ |(x / p : ℚ)| / 2 ^ 51 := by linarith [abs_nonneg (x / p : ℚ)]

/-- A number of units, `100 * k` of which make a price of one, comes out as the nearest number of
cents, unless it is in the middle between two. -/
theorem fPriceToIPrice_pricedIn {k : ℕ} (hk : 0 < k) (hk4 : k ≤ 10 ^ 4) {x n : ℤ}
    (hn : n = (2 * x + k) / (2 * k)) (htie : (2 * x) % (2 * k) ≠ k) (hmin : -2 ^ 31 ≤ n)
    (hmax : n < 2 ^ 31) :
    fPriceToIPrice (pricedIn (100 * k) x) = some (if 0 ≤ n then n else n + 1) := by
  refine fPriceToIPrice_near hmin hmax ?_
  have hk' : (0 : ℚ) < k := by exact_mod_cast hk
  have hkmax : (k : ℚ) ≤ 10 ^ 4 := by exact_mod_cast hk4
  have hnear := pricedIn_near (show 0 < 100 * k by omega) x
  -- how far `x` is from `n` cents, in halves of a unit
  have hdist : |2 * x - 2 * k * n| ≤ (k : ℤ) - 1 := by
    have hmod := Int.emod_nonneg (2 * x + k) (show (2 * k : ℤ) ≠ 0 by omega)
    have hlt := Int.emod_lt_of_pos (2 * x + k) (show (0 : ℤ) < 2 * k by omega)
    have hdiv := Int.mul_ediv_add_emod (2 * x + k) (2 * k)
    rw [← hn] at hdiv
    have hne : (2 * x + k) % (2 * k) ≠ 0 := fun h0 => by
      refine htie ?_
      have hx : 2 * x = k + 2 * k * (n - 1) := by
        rw [h0] at hdiv
        linarith
      rw [hx, Int.add_mul_emod_self_left, Int.emod_eq_of_lt (by omega) (by omega)]
    rw [abs_le]
    constructor <;> omega
  have hdist' : |(2 * x - 2 * k * n : ℚ)| ≤ k - 1 := by exact_mod_cast hdist
  have hcents : |(x / k - n : ℚ)| ≤ 1 / 2 - 1 / (2 * 10 ^ 4) := by
    have hsplit : (x / k - n : ℚ) = (2 * x - 2 * k * n) / (2 * k) := by field_simp
    rw [hsplit, abs_div, abs_of_pos (show (0 : ℚ) < 2 * k by positivity),
      div_le_iff₀ (by positivity)]
    linarith
  have hsize : |(x / k : ℚ)| ≤ 2 ^ 31 + 1 := by
    have hn' : |(n : ℚ)| ≤ 2 ^ 31 := by
      have : |n| ≤ 2 ^ 31 := abs_le.mpr ⟨by omega, by omega⟩
      exact_mod_cast this
    have := abs_sub_abs_le_abs_sub (x / k : ℚ) n
    linarith
  have hscale : (x / (100 * k : ℕ) : ℚ) = x / k / 100 := by
    push_cast
    rw [div_div, mul_comm]
  rw [hscale, abs_div, abs_of_pos (show (0 : ℚ) < 100 by norm_num)] at hnear
  have hsum : |100 * (pricedIn (100 * k) x).value - x / k| ≤ 1 / 2 ^ 19 := by
    rw [show 100 * (pricedIn (100 * k) x).value - x / k
      = 100 * ((pricedIn (100 * k) x).value - x / k / 100) by ring, abs_mul,
      abs_of_pos (show (0 : ℚ) < 100 by norm_num)]
    linarith
  calc |100 * (pricedIn (100 * k) x).value - n|
      ≤ |100 * (pricedIn (100 * k) x).value - x / k| + |(x / k - n : ℚ)| := abs_sub_le _ _ _
    _ ≤ 1 / 2 - 1 / 10 ^ 6 := by linarith

/-- **No cent is lost** on the way through a double: a price comes back as it was, or one too large
if it was negative, and a price in the units of an exchange comes out as the nearest number of
cents if there is one. -/
theorem conversions_exact (x : ℤ) :
    (-2 ^ 31 ≤ x → x < 2 ^ 31 →
        fPriceToIPrice (iPriceToFPrice x) = some (if 0 ≤ x then x else x + 1))
      ∧ (0 ≤ x → (x + 50) / 100 < 2 ^ 31 → x % 100 ≠ 50 →
        fPriceToIPrice (sszL2TickToFPrice x) = some ((x + 50) / 100))
      ∧ (0 ≤ x → (x + 5000) / 10000 < 2 ^ 31 → x % 10000 ≠ 5000 →
        fPriceToIPrice (sszL2SnapToFPrice x) = some ((x + 5000) / 10000))
      ∧ (0 ≤ x → (x + 5) / 10 < 2 ^ 31 → x % 10 ≠ 5 →
        fPriceToIPrice (sshL2TickToFPrice x) = some ((x + 5) / 10)
          ∧ fPriceToIPrice (sshL2SnapToFPrice x) = some ((x + 5) / 10)) := by
  refine ⟨fun hmin hmax => ?_, fun h0 hmax htie => ?_, fun h0 hmax htie => ?_,
    fun h0 hmax htie => ?_⟩
  · exact fPriceToIPrice_pricedIn (k := 1) one_pos (by norm_num) (by push_cast; omega)
      (by push_cast; omega) hmin hmax
  · have h := fPriceToIPrice_pricedIn (k := 100) (x := x) (n := (x + 50) / 100) (by norm_num)
      (by norm_num) (by push_cast; omega) (by push_cast; omega) (by omega) hmax
    rwa [if_pos (by omega)] at h
  · have h := fPriceToIPrice_pricedIn (k := 10000) (x := x) (n := (x + 5000) / 10000) (by norm_num)
      (by norm_num) (by push_cast; omega) (by push_cast; omega) (by omega) hmax
    rwa [if_pos (by omega)] at h
  · have h := fPriceToIPrice_pricedIn (k := 10) (x := x) (n := (x + 5) / 10) (by norm_num)
      (by norm_num) (by push_cast; omega) (by push_cast; omega) (by omega) hmax
    rw [if_pos (by omega)] at h
    exact ⟨h, h⟩

theorem conversions_exact_1519999 :
    fPriceToIPrice (iPriceToFPrice 1519999) = some 1519999
      ∧ fPriceToIPrice (sszL2TickToFPrice 1519999) = some 15200
      ∧ fPriceToIPrice (sszL2SnapToFPrice 1519999) = some 152
      ∧ fPriceToIPrice (sshL2TickToFPrice 1519999) = some 152000 :=
  have h := conversions_exact 1519999
  ⟨h.1 (by norm_num) (by norm_num), h.2.1 (by norm_num) (by norm_num) (by norm_num),
    h.2.2.1 (by norm_num) (by norm_num) (by norm_num),
    (h.2.2.2 (by norm_num) (by norm_num) (by norm_num)).1⟩

end Precision
end S4LibLite

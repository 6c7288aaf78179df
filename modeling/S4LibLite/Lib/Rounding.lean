import Mathlib.Algebra.Order.Round
import Mathlib.Data.Int.Log
import Mathlib.Tactic.FieldSimp
import Mathlib.Tactic.Linarith
import Mathlib.Tactic.Positivity
import Mathlib.Tactic.Ring

/-!
# Rounding to a number of digits

A number is rounded to `n` significant digits by rounding it to a multiple of a power of the base,
and which power that is depends on the number's own size. An algorithm that produces digits has to
know the size first, and may be wrong about it close to a power of the base.

* `roundDigits b n v`, the number `v` rounded to `n` digits in base `b`, halves upwards;
* `roundDigits_of_near`, what is enough for `D * b ^ k` to be it, on either side of a power;
* `abs_sub_roundDigits_le`, `zpow_log_le_roundDigits`, `roundDigits_lt_two_mul`, how far rounding
  goes;
* `round_div`, the rounded quotient of natural numbers by its remainder.
-/

namespace S4LibLite
namespace Rounding

/-! ## Significant digits -/

section Digits

variable {K : Type*} [Field K] [LinearOrder K] [IsStrictOrderedRing K] [FloorRing K]
variable {b : ℕ} {v x : K} {k : ℤ}

/-- The number `v`, rounded to `n` digits in base `b`; halves are rounded upwards. -/
def roundDigits (b n : ℕ) (v : K) : K :=
  round (v / (b : K) ^ (Int.log b v + 1 - n)) * (b : K) ^ (Int.log b v + 1 - n)

theorem log_eq (hb : 1 < b) (hlow : (b : K) ^ k ≤ v) (hhigh : v < (b : K) ^ (k + 1)) :
    Int.log b v = k := by
  have hv : 0 < v := (zpow_pos (by exact_mod_cast Nat.zero_lt_of_lt hb) k).trans_le hlow
  have hle := (Int.zpow_le_iff_le_log hb hv).mp hlow
  have hlt := (Int.lt_zpow_iff_log_lt hb hv).mp hhigh
  omega

theorem roundDigits_eq (hb : 1 < b) {n : ℕ} (hlow : (b : K) ^ (n : ℤ) ≤ x * b)
    (hhigh : x < (b : K) ^ (n : ℤ)) :
    roundDigits b n (x * (b : K) ^ k) = round x * (b : K) ^ k := by
  have hb0 : (0 : K) < b := by exact_mod_cast Nat.zero_lt_of_lt hb
  have hlog : Int.log b (x * (b : K) ^ k) = n - 1 + k := by
    apply log_eq hb
    · rw [zpow_add₀ hb0.ne', zpow_sub_one₀ hb0.ne']
      exact mul_le_mul_of_nonneg_right ((mul_inv_le_iff₀ hb0).mpr hlow) (zpow_pos hb0 k).le
    · rw [show (n : ℤ) - 1 + k + 1 = n + k by ring, zpow_add₀ hb0.ne']
      exact mul_lt_mul_of_pos_right hhigh (zpow_pos hb0 k)
  rw [roundDigits, hlog, show (n : ℤ) - 1 + k + 1 - n = k by ring,
    mul_div_cancel_right₀ _ (zpow_ne_zero k hb0.ne')]

/-- `D * b ^ k` is `v` rounded to `n` digits where it is within half a unit of the last digit and
has `n` digits. Where it is a power of the base, the digits below it are finer. -/
theorem roundDigits_of_near (hb : 1 < b) {n D : ℕ} (hn : 0 < n)
    (hnear : x ∈ Set.Ico (D - 1 / 2 : K) (D + 1 / 2)) (hlow : b ^ (n - 1) ≤ D)
    (hhigh : D ≤ b ^ n)
    (hedge : D = b ^ (n - 1) → (b : K) ^ (n - 1) - 1 / (2 * b) ≤ x) :
    roundDigits b n (x * (b : K) ^ k) = D * (b : K) ^ k := by
  obtain ⟨m, rfl⟩ : ∃ m, n = m + 1 := ⟨n - 1, by omega⟩
  rw [Nat.add_sub_cancel] at hlow hedge
  have hb2 : (2 : K) ≤ b := by exact_mod_cast hb
  have hb0 : (0 : K) < b := by linarith
  have hm : (1 : K) ≤ (b : K) ^ m := one_le_pow₀ (by linarith)
  have hpow : (b : K) ^ (m + 1) = b ^ m * b := pow_succ _ _
  rcases lt_or_ge x ((b : K) ^ m) with hbelow | hbelow
  · -- the number lies below the power of the base that its digits show
    have hD : D = b ^ m := by
      refine le_antisymm (Nat.lt_succ_iff.mp ?_) hlow
      have : (D : K) < b ^ m + 1 := by linarith [hnear.1]
      exact_mod_cast this
    have hx := hedge hD
    have hsub : (1 : K) / (2 * b) * b = 1 / 2 := by field_simp
    have hxb := mul_le_mul_of_nonneg_right hx hb0.le
    rw [sub_mul, hsub, ← hpow] at hxb
    have hsplit : x * (b : K) ^ k = x * b * (b : K) ^ (k - 1) := by
      rw [mul_assoc, ← zpow_one_add₀ hb0.ne']
      congr 2
      ring
    have hround : round (x * b) = ((b ^ (m + 1) : ℕ) : ℤ) := by
      refine round_eq_iff.mpr ⟨?_, ?_⟩
      · push_cast
        exact hxb
      · have := mul_lt_mul_of_pos_right hbelow hb0
        push_cast
        rw [hpow]
        linarith
    rw [hsplit, roundDigits_eq hb, hround, hD]
    · push_cast
      rw [hpow, mul_assoc, ← zpow_one_add₀ hb0.ne']
      congr 2
      ring
    · rw [zpow_natCast]
      have hhalf : (b : K) ^ (m + 1) ≤ x * b * 2 := by
        rw [hpow] at hxb ⊢
        nlinarith
      exact hhalf.trans (mul_le_mul_of_nonneg_left hb2 (mul_nonneg (by nlinarith) hb0.le))
    · rw [zpow_natCast, hpow]
      exact mul_lt_mul_of_pos_right hbelow hb0
  rcases lt_or_ge x ((b : K) ^ (m + 1)) with habove | habove
  · have hround : round x = (D : ℤ) := round_eq_iff.mpr (by exact_mod_cast hnear)
    rw [roundDigits_eq hb, hround, Int.cast_natCast]
    · rw [zpow_natCast, hpow]
      exact mul_le_mul_of_nonneg_right hbelow hb0.le
    · rw [zpow_natCast]
      exact habove
  · -- the number has reached the next power of the base
    have hD : D = b ^ (m + 1) := by
      refine le_antisymm hhigh (Nat.lt_succ_iff.mp ?_)
      have : ((b ^ (m + 1) : ℕ) : K) < D + 1 := by
        push_cast
        linarith [hnear.2]
      exact_mod_cast this
    have hx := hnear.2
    rw [hD] at hx
    push_cast at hx
    have hsplit : x * (b : K) ^ k = x / b * (b : K) ^ (k + 1) := by
      rw [zpow_add_one₀ hb0.ne']
      field_simp
    have hround : round (x / b) = ((b ^ m : ℕ) : ℤ) := by
      refine round_eq_iff.mpr ⟨?_, ?_⟩
      · rw [le_div_iff₀ hb0]
        push_cast
        nlinarith
      · rw [div_lt_iff₀ hb0]
        push_cast
        nlinarith
    rw [hsplit, roundDigits_eq hb, hround, hD]
    · push_cast
      rw [zpow_add_one₀ hb0.ne', hpow]
      ring
    · rw [zpow_natCast, div_mul_cancel₀ _ hb0.ne']
      exact habove
    · rw [zpow_natCast, div_lt_iff₀ hb0]
      nlinarith

/-- The rounded number is within half a unit of its last digit. -/
theorem abs_sub_roundDigits_le (hb : 1 < b) (n : ℕ) (v : K) :
    |v - roundDigits b n v| ≤ (b : K) ^ (Int.log b v + 1 - n) / 2 := by
  have hb0 : (0 : K) < b := by exact_mod_cast Nat.zero_lt_of_lt hb
  have hq := zpow_pos hb0 (Int.log b v + 1 - n)
  have hsplit : v - roundDigits b n v
      = (v / (b : K) ^ (Int.log b v + 1 - n)
          - round (v / (b : K) ^ (Int.log b v + 1 - n))) * (b : K) ^ (Int.log b v + 1 - n) := by
    rw [roundDigits, sub_mul, div_mul_cancel₀ _ hq.ne']
  rw [hsplit, abs_mul, abs_of_pos hq]
  calc _ ≤ 1 / 2 * (b : K) ^ (Int.log b v + 1 - n) :=
        mul_le_mul_of_nonneg_right (abs_sub_round _) hq.le
    _ = (b : K) ^ (Int.log b v + 1 - n) / 2 := one_div_mul_eq_div _ _

/-- Rounding does not take a number below the power of the base that begins its first digit. -/
theorem zpow_log_le_roundDigits (hb : 1 < b) {n : ℕ} (hn : 0 < n) (hv : 0 < v) :
    (b : K) ^ Int.log b v ≤ roundDigits b n v := by
  have hb0 : (0 : K) < b := by exact_mod_cast Nat.zero_lt_of_lt hb
  obtain ⟨m, rfl⟩ : ∃ m, n = m + 1 := ⟨n - 1, by omega⟩
  have hscale : Int.log b v + 1 - ((m + 1 : ℕ) : ℤ) = Int.log b v - m := by
    push_cast
    ring
  have hq := zpow_pos hb0 (Int.log b v - m)
  have hsplit : (b : K) ^ Int.log b v = (b : K) ^ m * b ^ (Int.log b v - m) := by
    rw [← zpow_natCast, ← zpow_add₀ hb0.ne', add_sub_cancel]
  have hlow := Int.zpow_log_le_self hb hv
  rw [hsplit, ← le_div_iff₀ hq] at hlow
  have hround : ((b ^ m : ℕ) : ℤ) ≤ round (v / (b : K) ^ (Int.log b v - m)) := by
    rw [round_eq, Int.le_floor]
    push_cast
    linarith
  rw [roundDigits, hscale, hsplit]
  exact mul_le_mul_of_nonneg_right (by exact_mod_cast hround) hq.le

theorem roundDigits_lt_two_mul (hb : 1 < b) {n : ℕ} (hn : 0 < n) (hv : 0 < v) :
    roundDigits b n v < 2 * v := by
  have hnear := (abs_le.mp (abs_sub_roundDigits_le hb n v)).1
  have hunit : (b : K) ^ (Int.log b v + 1 - n) ≤ v :=
    (zpow_le_zpow_right₀ (by exact_mod_cast hb.le) (by omega)).trans (Int.zpow_log_le_self hb hv)
  linarith

end Digits

/-! ## Quotients -/

/-- A quotient is rounded upwards where twice the remainder reaches the divisor. -/
theorem round_div {K : Type*} [Field K] [LinearOrder K] [IsStrictOrderedRing K] [FloorRing K]
    (n : ℕ) {d : ℕ} (hd : 0 < d) :
    round ((n : K) / d) = ((n / d + if d ≤ 2 * (n % d) then 1 else 0 : ℕ) : ℤ) := by
  have hd0 : (0 : K) < d := by exact_mod_cast hd
  have hn : (n : K) = d * (n / d : ℕ) + (n % d : ℕ) := by
    exact_mod_cast (Nat.div_add_mod n d).symm
  have hmod : ((n % d : ℕ) : K) < d := by exact_mod_cast Nat.mod_lt n hd
  have hmod0 : (0 : K) ≤ (n % d : ℕ) := Nat.cast_nonneg _
  rw [round_eq_iff, Int.cast_natCast, Nat.cast_add, Set.mem_Ico, le_div_iff₀ hd0, div_lt_iff₀ hd0]
  split
  · rename_i hup
    have hup : (d : K) ≤ 2 * (n % d : ℕ) := by exact_mod_cast hup
    rw [Nat.cast_one]
    constructor <;> nlinarith
  · rename_i hdown
    have hdown : 2 * ((n % d : ℕ) : K) < d := by exact_mod_cast Nat.lt_of_not_le hdown
    rw [Nat.cast_zero]
    constructor <;> nlinarith

end Rounding
end S4LibLite

import S4LibLite.Lib.Nearest
import S4LibLite.Types.BinaryTheorems
import Mathlib.Data.Int.Log

/-!
# Doubles in their order, and the nearest one (`ieee.h`)

The bits of the doubles that are not negative grow with their numbers, up to those of infinity. The
formula for a number by its bits goes on behind infinity, so that a number too large for a double is
rounded as if there were larger ones, and everything from infinity on becomes infinity.

* `doubleAt`, the number with the bits `k`, and `boundary_doubleAt`, the boundary over it;
* `nearest`, what the compiler's arithmetic and its literals yield;
* `roundsTo_nearest`, it is the nearest double, halves to even.
-/

namespace S4LibLite

open Rounding

/-- `Double::kInfinity`. -/
def kInfinity : ℕ := 0x7FF0000000000000

/-! ## Doubles by their bits -/

/-- The exponent of the double with the bits `k`. -/
def expAt (k : ℕ) : ℤ := max (k / 2 ^ 52 : ℕ) 1 - 1075

/-- Its significand. -/
def sigAt (k : ℕ) : ℕ := k - (max (k / 2 ^ 52) 1 - 1) * 2 ^ 52

/-- The double with the bits `k`, as a number; that of infinity is `2 ^ 1024`. -/
def doubleAt (k : ℕ) : ℚ := sigAt k * 2 ^ expAt k

/-- A significand and its exponent have their place, unless it could be made larger. -/
theorem at_index {m E : ℕ} (hm : m < 2 ^ 53) (hE : E = 0 ∨ 2 ^ 52 ≤ m) :
    sigAt (E * 2 ^ 52 + m) = m ∧ expAt (E * 2 ^ 52 + m) = E - 1074 := by
  rw [sigAt, expAt]
  omega

theorem doubleAt_index {m E : ℕ} (hm : m ≤ 2 ^ 53) (hE : E = 0 ∨ 2 ^ 52 ≤ m) :
    doubleAt (E * 2 ^ 52 + m) = m * 2 ^ (E - 1074 : ℤ) := by
  rcases Nat.lt_or_ge m (2 ^ 53) with h | h
  · rw [doubleAt, (at_index h hE).1, (at_index h hE).2]
  · -- it is the first one of the next exponent
    obtain rfl := Nat.le_antisymm hm h
    obtain ⟨hsig, hexp⟩ := at_index (m := 2 ^ 52) (E := E + 1) (by norm_num) (Or.inr le_rfl)
    rw [show E * 2 ^ 52 + 2 ^ 53 = (E + 1) * 2 ^ 52 + 2 ^ 52 by ring, doubleAt, hsig, hexp]
    push_cast
    rw [show (E + 1 - 1074 : ℤ) = E - 1074 + 1 by ring, zpow_add_one₀ (by norm_num)]
    ring

theorem sigAt_lt (k : ℕ) : sigAt k < 2 ^ 53 := by
  rw [sigAt]
  omega

/-- The index of a double, by its parts. -/
theorem index_at (k : ℕ) : (k / 2 ^ 52 - 1) * 2 ^ 52 + sigAt k = k
    ∧ (k / 2 ^ 52 - 1 = 0 ∨ 2 ^ 52 ≤ sigAt k) ∧ ((k / 2 ^ 52 - 1 : ℕ) : ℤ) - 1074 = expAt k := by
  rw [sigAt, expAt]
  omega

theorem doubleAt_succ (k : ℕ) : doubleAt (k + 1) = doubleAt k + 2 ^ expAt k := by
  obtain ⟨hindex, hnormal, hexp⟩ := index_at k
  have hnext := doubleAt_index (m := sigAt k + 1) (E := k / 2 ^ 52 - 1)
    (Nat.succ_le_of_lt (sigAt_lt k)) (hnormal.imp_right Nat.le_succ_of_le)
  rw [← Nat.add_assoc, hindex, hexp] at hnext
  rw [hnext, doubleAt]
  push_cast
  ring

theorem strictMono_doubleAt : StrictMono doubleAt := strictMono_nat_of_lt_succ fun k => by
  rw [doubleAt_succ]
  exact lt_add_of_pos_right _ (zpow_pos (by norm_num) _)

/-- The upper boundary of a double. -/
theorem boundary_doubleAt (k : ℕ) :
    boundary doubleAt k = (sigAt k * 2 + 1 : ℕ) * 2 ^ (expAt k - 1) := by
  rw [boundary, doubleAt_succ, doubleAt, zpow_sub_one₀ (by norm_num)]
  push_cast
  ring

theorem boundary_eq_add (k : ℕ) : boundary doubleAt k = doubleAt k + 2 ^ expAt k / 2 := by
  rw [boundary, doubleAt_succ]
  ring

/-- The last places of neighbours differ by a factor of two at most. -/
theorem expAt_succ (k : ℕ) : expAt k ≤ expAt (k + 1) ∧ expAt (k + 1) ≤ expAt k + 1 := by
  rw [expAt, expAt]
  omega

theorem doubleAt_zero : doubleAt 0 = 0 := by decide +kernel

/-! ## Boundaries in units of the last place -/

section Units

variable {m E : ℕ} {t : ℚ}

theorem boundary_index (hm : m < 2 ^ 53) (hE : E = 0 ∨ 2 ^ 52 ≤ m) :
    boundary doubleAt (E * 2 ^ 52 + m) = (m + 1 / 2) * 2 ^ (E - 1074 : ℤ) := by
  rw [boundary_eq_add, doubleAt_index hm.le hE, (at_index hm hE).2]
  ring

/-- Half a unit over the next double lies no boundary. -/
theorem lt_boundary_index (hm : m < 2 ^ 53) (hE : E = 0 ∨ 2 ^ 52 ≤ m) (ht : t < m + 3 / 2) :
    t * 2 ^ (E - 1074 : ℤ) < boundary doubleAt (E * 2 ^ 52 + m + 1) := by
  have hunit : (0 : ℚ) < 2 ^ (E - 1074 : ℤ) := zpow_pos (by norm_num) _
  have hle : (2 : ℚ) ^ (E - 1074 : ℤ) ≤ 2 ^ expAt (E * 2 ^ 52 + m + 1) := by
    rw [← (at_index hm hE).2]
    exact zpow_le_zpow_right₀ (by norm_num) (expAt_succ _).1
  rw [boundary_eq_add, doubleAt_succ, doubleAt_index hm.le hE, (at_index hm hE).2]
  have := mul_lt_mul_of_pos_right ht hunit
  generalize (2 : ℚ) ^ (E - 1074 : ℤ) = u at *
  generalize (2 : ℚ) ^ expAt (E * 2 ^ 52 + m + 1) = x at *
  linarith

/-- Nor a quarter of a unit under a double. -/
theorem boundary_lt_index (hm : m < 2 ^ 53) (hE : E = 0 ∨ 2 ^ 52 ≤ m) (ht : m - 1 / 4 < t) {j : ℕ}
    (hj : j + 1 = E * 2 ^ 52 + m) : boundary doubleAt j < t * 2 ^ (E - 1074 : ℤ) := by
  have hunit : (0 : ℚ) < 2 ^ (E - 1074 : ℤ) := zpow_pos (by norm_num) _
  have hle : (2 : ℚ) ^ (E - 1074 : ℤ) ≤ 2 ^ expAt j * 2 := by
    rw [← (at_index hm hE).2, ← hj, ← zpow_add_one₀ (by norm_num)]
    exact zpow_le_zpow_right₀ (by norm_num) (expAt_succ _).2
  have hnext := doubleAt_succ j
  rw [hj, doubleAt_index hm.le hE] at hnext
  rw [boundary_eq_add]
  have := mul_lt_mul_of_pos_right ht hunit
  rw [sub_mul] at this
  linarith

end Units

/-! ## The nearest double -/

/-- The bits of the double nearest to a number that is not negative. -/
def nearest (x : ℚ) : ℕ :=
  if x ≤ 0 then 0
  else
    let e := max (Int.log 2 x - 52) (-1074)
    min kInfinity ((e + 1074).toNat * 2 ^ 52
      + Binary.roundHalfEven (x.num.toNat * 2 ^ (-e).toNat) (x.den * 2 ^ e.toNat))

/-- A number between two doubles, in units of their last place. -/
theorem roundsTo_index {m E : ℕ} (hm : m < 2 ^ 53) (hE : E = 0 ∨ 2 ^ 52 ≤ m) {t : ℚ}
    (hlow : m ≤ t) (hhigh : t < m + 1) {r : ℕ}
    (hr : r = m ∧ (2 * t < 2 * m + 1 ∨ 2 * t = 2 * m + 1 ∧ Even m)
      ∨ r = m + 1 ∧ (2 * m + 1 < 2 * t ∨ 2 * m + 1 = 2 * t ∧ ¬ Even m)) :
    RoundsTo doubleAt kInfinity (t * 2 ^ (E - 1074 : ℤ)) (min kInfinity (E * 2 ^ 52 + r)) := by
  have hunit : (0 : ℚ) < 2 ^ (E - 1074 : ℤ) := zpow_pos (by norm_num) _
  have hat := doubleAt_index hm.le hE
  have hnext := doubleAt_index (Nat.succ_le_of_lt hm) (hE.imp_right Nat.le_succ_of_le)
  have hboundary := boundary_index hm hE
  have hparity : Even (E * 2 ^ 52 + m) ↔ Even m := by
    rw [Nat.even_add, iff_true_left ((by decide : Even (2 ^ 52)).mul_left E)]
  rcases hr with ⟨rfl, hr⟩ | ⟨rfl, hr⟩
  · refine .of_min strictMono_doubleAt (.of_le strictMono_doubleAt ?_) ?_ _
    · rw [hat]
      exact mul_le_mul_of_nonneg_right hlow hunit.le
    · rw [NotAbove, hparity, hboundary, mul_lt_mul_iff_left₀ hunit, mul_left_inj' hunit.ne']
      exact hr.imp (fun h => by linarith) fun h => ⟨by linarith [h.1], h.2⟩
  · refine .of_min strictMono_doubleAt ?_ (.of_le strictMono_doubleAt ?_) _
    · rintro j hj
      obtain rfl : j = E * 2 ^ 52 + m := by omega
      rw [← hj, Nat.even_add_one, hparity, hboundary, mul_lt_mul_iff_left₀ hunit,
        mul_left_inj' hunit.ne']
      exact hr.imp (fun h => by linarith) fun h => ⟨by linarith [h.1], h.2⟩
    · rw [hnext]
      push_cast
      exact mul_le_mul_of_nonneg_right hhigh.le hunit.le

/-- What `roundHalfEven` does, by the quotient. -/
theorem roundHalfEven_cases (n : ℕ) {d : ℕ} (hd : 0 < d) :
    Binary.roundHalfEven n d = n / d
        ∧ (2 * n < (2 * (n / d) + 1) * d ∨ 2 * n = (2 * (n / d) + 1) * d ∧ Even (n / d))
      ∨ Binary.roundHalfEven n d = n / d + 1
        ∧ ((2 * (n / d) + 1) * d < 2 * n ∨ (2 * (n / d) + 1) * d = 2 * n ∧ ¬ Even (n / d)) := by
  have hdiv := Nat.div_add_mod n d
  have hmod := Nat.mod_lt n hd
  rw [Binary.roundHalfEven, Nat.even_iff]
  rw [show (2 * (n / d) + 1) * d = 2 * (d * (n / d)) + d by ring]
  generalize d * (n / d) = q at *
  split <;> omega

/-- A number, over a power of two. -/
theorem eq_ratio {x : ℚ} (hx : 0 < x) (e : ℤ) : 0 < x.den * 2 ^ e.toNat
    ∧ x = (x.num.toNat * 2 ^ (-e).toNat : ℕ) / (x.den * 2 ^ e.toNat : ℕ) * 2 ^ e := by
  refine ⟨Nat.mul_pos x.den_pos (Nat.two_pow_pos _), ?_⟩
  have hnum : ((x.num.toNat : ℕ) : ℚ) = x.num := by
    exact_mod_cast Int.toNat_of_nonneg (Rat.num_pos.mpr hx).le
  have hpow : (2 : ℚ) ^ e = 2 ^ e.toNat / 2 ^ (-e).toNat := by
    rw [← zpow_natCast, ← zpow_natCast, ← zpow_sub₀ (by norm_num), Int.toNat_sub_toNat_neg]
  have hden : (x.den : ℚ) ≠ 0 := by exact_mod_cast x.den_pos.ne'
  push_cast
  rw [hpow, hnum]
  conv_lhs => rw [← Rat.num_div_den x]
  field_simp

/-- The scale of a number leaves fifty-three bits, or fewer at the smallest scale. -/
theorem scaled_bounds {x : ℚ} (hx : 0 < x) {e : ℤ} (he : e = max (Int.log 2 x - 52) (-1074)) :
    (e = -1074 ∨ 2 ^ 52 * 2 ^ e ≤ x) ∧ x < 2 ^ 53 * 2 ^ e := by
  have hlow := Int.zpow_log_le_self (b := 2) (by norm_num) hx
  have hhigh := Int.lt_zpow_succ_log_self (b := 2) (by norm_num) x
  rw [Nat.cast_ofNat] at hlow hhigh
  have hpow : ∀ n : ℕ, (2 : ℚ) ^ n * 2 ^ e = 2 ^ (n + e) := fun n => by
    rw [zpow_add₀ (by norm_num), zpow_natCast]
  rw [hpow, hpow]
  refine ⟨?_, hhigh.trans_le (zpow_le_zpow_right₀ (by norm_num) (by push_cast; omega))⟩
  rcases le_or_gt (Int.log 2 x - 52) (-1074) with h | h
  · exact Or.inl (by omega)
  · exact Or.inr ((zpow_le_zpow_right₀ (by norm_num) (by push_cast; omega)).trans hlow)

/-- **The nearest double** is where a number is rounded to. -/
theorem roundsTo_nearest {x : ℚ} (hx : 0 ≤ x) : RoundsTo doubleAt kInfinity x (nearest x) := by
  rw [nearest]
  split
  · rename_i h
    obtain rfl := le_antisymm h hx
    have h0 := RoundsTo.self strictMono_doubleAt (Nat.zero_le kInfinity)
    rwa [doubleAt_zero] at h0
  · rename_i hpos
    have hpos : 0 < x := not_le.mp hpos
    dsimp only
    obtain ⟨e, he⟩ : ∃ e, e = max (Int.log 2 x - 52) (-1074) := ⟨_, rfl⟩
    rw [← he]
    obtain ⟨E, hE⟩ : ∃ E : ℕ, e = E - 1074 := ⟨(e + 1074).toNat, by omega⟩
    obtain ⟨hD, hxN⟩ := eq_ratio hpos e
    generalize x.num.toNat * 2 ^ (-e).toNat = N at *
    generalize x.den * 2 ^ e.toNat = D at *
    have hD' : (0 : ℚ) < D := by exact_mod_cast hD
    have he0 : (0 : ℚ) < 2 ^ e := zpow_pos (by norm_num) e
    obtain ⟨hlow, hhigh⟩ := scaled_bounds hpos he
    rw [show (e + 1074).toNat = E by omega]
    rw [hxN] at hlow hhigh
    rw [mul_lt_mul_iff_left₀ he0, div_lt_iff₀ hD'] at hhigh
    rw [mul_le_mul_iff_left₀ he0, le_div_iff₀ hD'] at hlow
    have hfloor : ((N / D : ℕ) : ℚ) * D ≤ N := by exact_mod_cast Nat.div_mul_le_self N D
    have hceil : (N : ℚ) < ((N / D : ℕ) + 1) * D := by
      exact_mod_cast (Nat.lt_mul_div_succ N hD).trans_eq (Nat.mul_comm _ _)
    rw [hxN, hE]
    refine roundsTo_index (m := N / D) ?_ ?_ ((le_div_iff₀ hD').mpr hfloor)
      ((div_lt_iff₀ hD').mpr hceil) ?_
    · exact (Nat.div_lt_iff_lt_mul hD).mpr (by exact_mod_cast hhigh)
    · exact hlow.imp (by omega) fun h => (Nat.le_div_iff_mul_le hD).mpr (by exact_mod_cast h)
    · rw [← mul_div_assoc, lt_div_iff₀ hD', div_lt_iff₀ hD', div_eq_iff hD'.ne', eq_div_iff hD'.ne']
      exact_mod_cast roundHalfEven_cases N hD

end S4LibLite

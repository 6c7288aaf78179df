import S4LibLite.Types.BignumTheorems
import S4LibLite.Types.FixedDtoaTheorems
import S4LibLite.Types.StrtodGuess

/-!
# `Strtod` finds the nearest double

Whatever the way, the digits times the power of ten are rounded to the nearest double, halves to the
even one: what is cut off decides nothing, a product of doubles is rounded once, and where
sixty-four bits leave two doubles, large numbers decide between these.

* `roundsTo_trimAndCut`, cutting digits off;
* `roundsTo_doubleStrtod`, in doubles;
* `compareBufferWithDiyFp_iff`, in large numbers;
* `strtod_eq_iff`, what `Strtod` returns.
-/

namespace S4LibLite

open Rounding

/-! ## In doubles -/

namespace Double

/-- The parts of a double that is not negative, by its bits. -/
theorem parts_eq {v : Double} (h : v.d64 < 2 ^ 63) :
    v.significand = sigAt v.d64 ∧ v.exponent = expAt v.d64 := by
  rw [significand, exponent, isDenormal, biasedExponent, kHiddenBit, kDenormalExponent, sigAt,
    expAt]
  simp only [beq_iff_eq]
  split <;> omega

theorem magnitude_eq {v : Double} (h : v.d64 < 2 ^ 63) : v.magnitude = doubleAt v.d64 := by
  rw [magnitude, doubleAt, (parts_eq h).1, (parts_eq h).2]

theorem eq_of_d64_eq {v w : Double} (h : v.d64 = w.d64) : v = w := by
  cases v
  cases w
  cases h
  rfl

theorem d64_ofRat {x : ℚ} (hx : 0 ≤ x) : (ofRat x).d64 = nearest x :=
  d64_ofBits (roundsTo_nearest hx).le_top

/-- What is a double already is kept. -/
theorem magnitude_ofRat {x : ℚ} {k : ℕ} (hk : k ≤ kInfinity) (h : doubleAt k = x) :
    (ofRat x).magnitude = x := by
  have hx : 0 ≤ x := by
    rw [← h, ← doubleAt_zero]
    exact strictMono_doubleAt.monotone (Nat.zero_le k)
  have hself := RoundsTo.self strictMono_doubleAt hk
  rw [h] at hself
  have hbits : (ofRat x).d64 = k := by
    rw [d64_ofRat hx]
    exact (roundsTo_nearest hx).unique strictMono_doubleAt hself
  rw [magnitude_eq, hbits, h]
  rw [hbits]
  exact hk.trans_lt (by decide)

/-- Natural numbers of fifty-three bits are doubles. -/
theorem magnitude_ofRat_nat {n : ℕ} (hn : n < 2 ^ 53) : (ofRat n).magnitude = n := by
  rcases Nat.eq_zero_or_pos n with rfl | hpos
  · exact magnitude_ofRat (Nat.zero_le _) (by rw [doubleAt_zero, Nat.cast_zero])
  · obtain ⟨s, hs, -, hlow, hhigh⟩ := normalizeLoop_spec hpos hn 0
    refine magnitude_ofRat (k := (1074 - s) * 2 ^ 52 + n * 2 ^ s) ?_ ?_
    · rw [kInfinity_eq]
      omega
    · rw [doubleAt_index hhigh.le (Or.inr hlow), Nat.cast_sub (by omega)]
      push_cast
      rw [show (1074 - s - 1074 : ℤ) = -s by ring, zpow_neg, zpow_natCast]
      exact mul_inv_cancel_right₀ (by positivity) _

theorem powers_are_doubles : ∀ k : Fin 23, nearest (10 ^ k.val) ≤ kInfinity
    ∧ doubleAt (nearest (10 ^ k.val)) = 10 ^ k.val := by decide +kernel

theorem magnitude_exactPowersOfTen {k : ℕ} (hk : k < 23) :
    (exactPowersOfTen k).magnitude = 10 ^ k :=
  magnitude_ofRat (powers_are_doubles ⟨k, hk⟩).1 (powers_are_doubles ⟨k, hk⟩).2

end Double

theorem roundsTo_ofRat {x : ℚ} (hx : 0 ≤ x) :
    RoundsTo doubleAt kInfinity x (Double.ofRat x).d64 := by
  rw [Double.d64_ofRat hx]
  exact roundsTo_nearest hx

/-- **In doubles** only the last operation rounds. -/
theorem roundsTo_doubleStrtod {s : Bytes} (hs : ∀ c ∈ s, isDigit c = true) {exponent : ℤ}
    {guess : Double} (h : doubleStrtod s exponent = some guess) :
    RoundsTo doubleAt kInfinity (decVal s * 10 ^ exponent) guess.d64 := by
  rw [doubleStrtod, kMaxExactDoubleIntegerDecimalDigits, kExactPowersOfTenSize] at h
  rcases Nat.lt_or_ge 15 s.length with hlong | hlen
  · rw [if_pos hlong] at h
    exact absurd h (by simp)
  have hlt := (decVal_lt hs).trans_le (Nat.pow_le_pow_right (show 0 < 10 by norm_num) hlen)
  have hread := Double.magnitude_ofRat_nat (hlt.trans (by norm_num))
  rw [if_neg (Nat.not_lt.mpr hlen), readUint64_eq hs hlen, hread] at h
  split at h
  · rename_i hneg
    obtain rfl := Option.some.inj h
    obtain ⟨k, rfl⟩ : ∃ k : ℕ, exponent = -k := ⟨(-exponent).toNat, by omega⟩
    rw [neg_neg, Int.toNat_natCast, Double.magnitude_exactPowersOfTen (by omega), zpow_neg,
      zpow_natCast, ← div_eq_mul_inv]
    exact roundsTo_ofRat (by positivity)
  split at h
  · rename_i hsmall
    obtain rfl := Option.some.inj h
    obtain ⟨k, rfl⟩ : ∃ k : ℕ, exponent = k := ⟨exponent.toNat, by omega⟩
    rw [Int.toNat_natCast, Double.magnitude_exactPowersOfTen (by omega), zpow_natCast]
    exact roundsTo_ofRat (by positivity)
  split at h
  · rename_i hshort
    obtain rfl := Option.some.inj h
    obtain ⟨k, hk⟩ : ∃ k : ℕ, exponent = (15 - s.length : ℕ) + k :=
      ⟨(exponent - (15 - s.length : ℕ)).toNat, by omega⟩
    -- the digits are few enough to be shifted exactly
    have hshifted : decVal s * 10 ^ (15 - s.length) < 2 ^ 53 := by
      calc decVal s * 10 ^ (15 - s.length) < 10 ^ s.length * 10 ^ (15 - s.length) :=
            Nat.mul_lt_mul_of_pos_right (decVal_lt hs) (by positivity)
        _ = 10 ^ 15 := by rw [← pow_add, Nat.add_sub_cancel' hlen]
        _ < 2 ^ 53 := by norm_num
    have hscaled := Double.magnitude_ofRat_nat hshifted
    push_cast at hscaled
    rw [Double.magnitude_exactPowersOfTen (by omega), hscaled, hk, add_sub_cancel_left,
      Int.toNat_natCast, Double.magnitude_exactPowersOfTen (by omega), zpow_add₀ (by norm_num),
      zpow_natCast, zpow_natCast, ← mul_assoc]
    exact roundsTo_ofRat (by positivity)
  · exact absurd h (by simp)

/-! ## In large numbers -/

section Large

open Bignum Capacity

variable {s : Bytes} {exponent : ℤ}

/-- A power is bounded by one of two, where one of its own powers is. -/
theorem pow_le_two_pow {b m i : ℕ} (hb : 0 < b) (h : b ^ i ≤ 2 ^ m) {n k : ℕ} (hn : n ≤ i * k) :
    b ^ n ≤ 2 ^ (m * k) :=
  calc b ^ n ≤ b ^ (i * k) := Nat.pow_le_pow_right hb hn
    _ = (b ^ i) ^ k := pow_mul _ _ _
    _ ≤ (2 ^ m) ^ k := Nat.pow_le_pow_left h k
    _ = 2 ^ (m * k) := (pow_mul _ _ _).symm

/-- So many digits have room, also with a positive power of ten. -/
theorem decVal_mul_lt_room (hs : ∀ c ∈ s, isDigit c = true) (hlen : s.length ≤ 780)
    (hhigh : exponent + s.length ≤ 309) : decVal s * 10 ^ exponent.toNat < room := by
  have hten : 10 ^ (s.length + exponent.toNat) ≤ 2 ^ (10 * 260) :=
    pow_le_two_pow (i := 3) (by norm_num) (by norm_num) (by omega)
  refine lt_room (k := 10 * 260) ?_ (by decide)
  calc decVal s * 10 ^ exponent.toNat < 10 ^ s.length * 10 ^ exponent.toNat :=
        Nat.mul_lt_mul_of_pos_right (decVal_lt hs) (by positivity)
    _ = 10 ^ (s.length + exponent.toNat) := (pow_add _ _ _).symm
    _ ≤ 2 ^ (10 * 260) := hten

/-- Sixty-four bits and a power of five, for a negative power of ten. -/
theorem mul_pow_five_lt {n k : ℕ} (hn : n < 2 ^ 64) (hk : k ≤ 1104) :
    n * 5 ^ k < (2 ^ 28) ^ 95 := by
  have hfive : 5 ^ k ≤ 2 ^ (7 * 368) := pow_le_two_pow (i := 3) (by norm_num) (by norm_num) hk
  refine lt_pow_of_lt_two_pow (k := 64 + 7 * 368) ?_ (by norm_num)
  calc n * 5 ^ k < 2 ^ 64 * 5 ^ k := Nat.mul_lt_mul_of_pos_right hn (by positivity)
    _ ≤ 2 ^ 64 * 2 ^ (7 * 368) := Nat.mul_le_mul_left _ hfive
    _ = 2 ^ (64 + 7 * 368) := (pow_add _ _ _).symm

/-- The digits as a large number, which leaves a bigit for the shift. -/
theorem gives_bufferBignum (hs : ∀ c ∈ s, isDigit c = true) (hlen : s.length ≤ 780)
    (hhigh : exponent + s.length ≤ 309) {a : Bignum} (ha : a.Held) (hvalue : a.value = decVal s) :
    Gives (if exponent ≥ 0 then a.multiplyByPowerOfTenIn exponent.toNat else some a)
      (fun r => r.Held ∧ r.value = decVal s * 10 ^ exponent.toNat
        ∧ r.bigits.length < kBigitCapacity) True := by
  have hroom := decVal_mul_lt_room hs hlen hhigh
  have hlength : ∀ {r : Bignum}, r.Held → r.value = decVal s * 10 ^ exponent.toNat →
      r.bigits.length < kBigitCapacity :=
    fun hr hv => length_succ_le_of_room hr.toValid (hv.trans_lt hroom)
  split
  · have hfive : a.value * 5 ^ exponent.toNat ≤ decVal s * 10 ^ exponent.toNat := by
      rw [hvalue]
      exact Nat.mul_le_mul_left _ (Nat.pow_le_pow_left (by norm_num) _)
    refine (makes_multiplyByPowerOfTen ha exponent.toNat).mono ?_ fun _ => hfive.trans_lt hroom
    rintro r ⟨hheld, hr⟩
    rw [hvalue] at hr
    exact ⟨hheld, hr, hlength hheld hr⟩
  · rename_i hneg
    have hr : a.value = decVal s * 10 ^ exponent.toNat := by
      rw [hvalue, Int.toNat_of_nonpos (by omega), pow_zero, Nat.mul_one]
    exact Gives.some ⟨ha, hr, hlength ha hr⟩

/-- The boundary as a large number, which leaves a bigit for the shift. -/
theorem gives_diyFpBignum {f : ℕ} (hf : f < 2 ^ 64) (hlow : -1104 ≤ exponent) :
    Gives (if exponent ≥ 0 then some (assignUInt64 f)
        else (assignUInt64 f).multiplyByPowerOfTenIn (-exponent).toNat)
      (fun r => r.Held ∧ r.value = f * 10 ^ (-exponent).toNat
        ∧ r.bigits.length < kBigitCapacity) True := by
  have hheld := held_assignUInt64 f
  have hvalue := value_assignUInt64 hf
  have hlt := mul_pow_five_lt hf (show (-exponent).toNat ≤ 1104 by omega)
  have hcapacity : 95 + 1 < kBigitCapacity := by decide
  split
  · rename_i hpos
    rw [Int.toNat_of_nonpos (by omega), pow_zero, Nat.mul_one] at hlt ⊢
    have hlen := bigitLength_le_of_value_lt hheld.toValid (hvalue.trans_lt hlt)
    rw [bigitLength] at hlen
    exact Gives.some ⟨hheld, hvalue, by omega⟩
  · have hgives := gives_multiplyByPowerOfTen hheld (-exponent).toNat
    rw [hvalue] at hgives
    refine hgives.mono (fun r hr => ⟨hr.1.1, hr.1.2, ?_⟩) fun _ => ?_
    · exact (hr.2 95 hlt).trans_lt hcapacity
    · exact hlt.trans_le (Nat.pow_le_pow_right (by norm_num) (by decide))

/-- Both numbers, in units small enough for them; neither is too large for its array. -/
theorem compareBufferWithDiyFp_eq (hs : ∀ c ∈ s, isDigit c = true) (hlen : s.length ≤ 780)
    (hlow : -324 < exponent + s.length) (hhigh : exponent + s.length ≤ 309) {w : DiyFp}
    (hf : w.f < 2 ^ 64) : ∃ n m d : ℕ, 0 < d
      ∧ compareBufferWithDiyFp s exponent w = some (Int.sign ((n : ℤ) - m))
      ∧ (n : ℚ) = decVal s * 10 ^ exponent * d ∧ (m : ℚ) = w.f * 2 ^ w.e * d := by
  refine ⟨decVal s * 10 ^ exponent.toNat * 2 ^ (-w.e).toNat,
    w.f * 10 ^ (-exponent).toNat * 2 ^ w.e.toNat, 10 ^ (-exponent).toNat * 2 ^ (-w.e).toNat,
    by positivity, ?_, ?_, ?_⟩
  · suffices hgives : Gives (compareBufferWithDiyFp s exponent w)
        (· = Int.sign ((decVal s * 10 ^ exponent.toNat * 2 ^ (-w.e).toNat : ℕ)
          - (w.f * 10 ^ (-exponent).toNat * 2 ^ w.e.toNat : ℕ) : ℤ)) True from
      hgives.eq_some trivial
    have hdecimal := makes_assignDecimalLoop held_zero hs
    rw [value_zero, Nat.zero_mul, Nat.zero_add] at hdecimal
    refine (hdecimal.mono (fun _ hr => hr) fun _ => ?_).bind ?_
    · exact (Nat.le_mul_of_pos_right _ (by positivity)).trans_lt (decVal_mul_lt_room hs hlen hhigh)
    rintro digits ⟨hdigits, hvalue⟩
    refine (gives_bufferBignum hs hlen hhigh hdigits hvalue).bind ?_
    rintro a ⟨ha, hvaluea, hlena⟩
    refine (gives_diyFpBignum hf (by omega)).bind ?_
    rintro b ⟨hb, hvalueb, hlenb⟩
    split
    · rename_i hup
      refine ((gives_shiftLeft hb w.e.toNat).mono (fun _ hr => hr.1) fun _ => hlenb).bind ?_
      rintro r ⟨hr, hvaluer⟩
      refine Gives.some ?_
      rw [compare_eq_sign ha.toValid hr.toValid, hvaluer, hvaluea, hvalueb,
        Int.toNat_of_nonpos (show -w.e ≤ 0 by omega), pow_zero, Nat.mul_one]
    · rename_i hdown
      refine ((gives_shiftLeft ha (-w.e).toNat).mono (fun _ hr => hr.1) fun _ => hlena).bind ?_
      rintro r ⟨hr, hvaluer⟩
      refine Gives.some ?_
      rw [compare_eq_sign hr.toValid hb.toValid, hvaluer, hvaluea, hvalueb,
        Int.toNat_of_nonpos (show w.e ≤ 0 by omega), pow_zero, Nat.mul_one]
  · have hten := zpow_eq_div (show 0 < 10 by norm_num) exponent
    rw [Nat.cast_ofNat] at hten
    rw [hten]
    push_cast
    field_simp
  · have htwo := zpow_eq_div (show 0 < 2 by norm_num) w.e
    rw [Nat.cast_ofNat] at htwo
    rw [htwo]
    push_cast
    field_simp

/-- **The comparison** orders the digits and the number. -/
theorem compareBufferWithDiyFp_iff (hs : ∀ c ∈ s, isDigit c = true) (hlen : s.length ≤ 780)
    (hlow : -324 < exponent + s.length) (hhigh : exponent + s.length ≤ 309) {w : DiyFp}
    (hf : w.f < 2 ^ 64) : ∃ comparison : ℤ,
      compareBufferWithDiyFp s exponent w = some comparison
      ∧ (comparison < 0 ↔ (decVal s : ℚ) * 10 ^ exponent < w.f * 2 ^ w.e)
      ∧ (0 < comparison ↔ (w.f : ℚ) * 2 ^ w.e < decVal s * 10 ^ exponent) := by
  obtain ⟨n, m, d, hd, hcompare, hn, hm⟩ := compareBufferWithDiyFp_eq hs hlen hlow hhigh hf
  have hd' : (0 : ℚ) < d := by exact_mod_cast hd
  have hless : (decVal s : ℚ) * 10 ^ exponent < w.f * 2 ^ w.e ↔ (n : ℚ) < m := by
    rw [hn, hm]
    exact (mul_lt_mul_iff_left₀ hd').symm
  have hmore : (w.f : ℚ) * 2 ^ w.e < decVal s * 10 ^ exponent ↔ (m : ℚ) < n := by
    rw [hn, hm]
    exact (mul_lt_mul_iff_left₀ hd').symm
  refine ⟨_, hcompare, ?_⟩
  rw [hless, hmore, Int.sign_neg_iff, Int.sign_pos_iff, Nat.cast_lt, Nat.cast_lt]
  constructor <;> omega

end Large

/-! ## Cutting -/

/-- A boundary is a number of tens, or of tenths, that is not very large. -/
theorem boundary_eq_tens {j : ℕ} (hj : j < kInfinity) :
    ∃ (N : ℕ) (y : ℤ), boundary doubleAt j = N * 10 ^ y ∧ N < 10 ^ 771 := by
  obtain ⟨x, hx⟩ : ∃ x, x = expAt j - 1 := ⟨_, rfl⟩
  have hrange : -1075 ≤ x ∧ x ≤ 970 := by
    rw [hx, expAt]
    rw [Double.kInfinity_eq] at hj
    omega
  have hsig : sigAt j * 2 + 1 < 2 ^ 54 := by
    have := sigAt_lt j
    omega
  rw [boundary_doubleAt, ← hx]
  rcases lt_or_ge x 0 with hneg | hpos
  · obtain ⟨n, rfl⟩ : ∃ n : ℕ, x = -n := ⟨(-x).toNat, by omega⟩
    refine ⟨(sigAt j * 2 + 1) * 5 ^ n, -n, ?_, ?_⟩
    · rw [zpow_neg, zpow_neg, zpow_natCast, zpow_natCast, show (10 : ℚ) = 5 * 2 by norm_num,
        mul_pow]
      push_cast
      field_simp
    · have hfive : 5 ^ n ≤ 5 ^ 1075 := by
        apply Nat.pow_le_pow_right
        · norm_num
        · omega
      have hlt : (sigAt j * 2 + 1) * 5 ^ n < 2 ^ 54 * 5 ^ 1075 :=
        Nat.mul_lt_mul_of_lt_of_le hsig hfive (pow_pos (by norm_num) _)
      exact hlt.trans (by decide +kernel)
  · obtain ⟨n, rfl⟩ := Int.eq_ofNat_of_zero_le hpos
    refine ⟨(sigAt j * 2 + 1) * 2 ^ n, 0, ?_, ?_⟩
    · rw [zpow_natCast, zpow_zero, mul_one]
      push_cast
      rfl
    · have htwo : 2 ^ n ≤ 2 ^ 970 := by
        apply Nat.pow_le_pow_right
        · norm_num
        · omega
      have hlt : (sigAt j * 2 + 1) * 2 ^ n < 2 ^ 54 * 2 ^ 970 :=
        Nat.mul_lt_mul_of_lt_of_le hsig htwo (pow_pos (by norm_num) _)
      exact hlt.trans (by decide +kernel)

/-- No boundary needs so many digits. -/
theorem boundary_not_between {D : ℕ} (hD : 10 ^ 771 ≤ D) (e : ℤ) {j : ℕ} (hj : j < kInfinity) :
    boundary doubleAt j ≤ D * 10 ^ e ∨ (D + 1) * 10 ^ e ≤ boundary doubleAt j := by
  obtain ⟨N, y, hN, hsmall⟩ := boundary_eq_tens hj
  rw [hN]
  have hten : (0 : ℚ) < 10 ^ e := zpow_pos (by norm_num) e
  rcases le_or_gt e y with hle | hlt
  · -- the boundary is a whole number of these units
    obtain ⟨n, rfl⟩ : ∃ n : ℕ, y = e + n := ⟨(y - e).toNat, by omega⟩
    rw [zpow_add₀ (by norm_num), zpow_natCast, mul_left_comm, mul_comm ((10 : ℚ) ^ e),
      mul_le_mul_iff_left₀ hten, mul_le_mul_iff_left₀ hten]
    rcases Nat.lt_or_ge D (N * 10 ^ n) with h | h
    · exact Or.inr (by exact_mod_cast h)
    · exact Or.inl (by exact_mod_cast h)
  · exact Or.inl (mul_le_mul (Nat.cast_le.mpr (hsmall.le.trans hD))
      (zpow_le_zpow_right₀ (by norm_num) hlt.le) (zpow_pos (by norm_num) _).le (Nat.cast_nonneg _))

/-- Digits of which the last is no zero. -/
theorem decVal_pos {t : Bytes} (ht : ∀ c ∈ t, isDigit c = true) (hlast : t.getLast? ≠ some 48)
    (hne : t ≠ []) : 0 < decVal t := by
  obtain ⟨front, c, rfl⟩ := (List.eq_nil_or_concat' t).resolve_left hne
  rw [List.getLast?_concat] at hlast
  rw [decVal_append_singleton]
  exact Nat.add_pos_right _ (digitVal_pos (Or.inl (ht c (by simp))) fun h => hlast (by rw [h]))

/-- Behind so many digits it only counts whether there are more. -/
theorem roundsTo_of_behind {D : ℕ} (hD : 10 ^ 771 ≤ D) {e : ℤ} {x y : ℚ} (hx0 : 0 < x) (hx1 : x < 1)
    (hy0 : 0 < y) (hy1 : y < 1) {k : ℕ}
    (h : RoundsTo doubleAt kInfinity ((D + x) * 10 ^ e) k) :
    RoundsTo doubleAt kInfinity ((D + y) * 10 ^ e) k := by
  have hunit : (0 : ℚ) < 10 ^ e := zpow_pos (by norm_num) _
  have hlow : ∀ z : ℚ, 0 < z → (D : ℚ) * 10 ^ e < (D + z) * 10 ^ e := fun z hz =>
    mul_lt_mul_of_pos_right (lt_add_of_pos_right _ hz) hunit
  have hhigh : ∀ z : ℚ, z < 1 → ((D : ℚ) + z) * 10 ^ e < (D + 1) * 10 ^ e := fun z hz =>
    mul_lt_mul_of_pos_right (add_lt_add_right hz _) hunit
  exact h.congr (hlow x hx0) (hhigh x hx1) (hlow y hy0) (hhigh y hy1) fun j hj =>
    boundary_not_between hD e hj

theorem decVal_dropWhile (s : Bytes) : decVal (s.dropWhile (· == 48)) = decVal s := by
  have hzeros : s.takeWhile (· == 48) = List.replicate (s.takeWhile (· == 48)).length 48 :=
    List.eq_replicate_of_mem fun c hc => by simpa using List.mem_takeWhile_imp hc
  conv_rhs => rw [← List.takeWhile_append_dropWhile (p := (· == 48)) (l := s), decVal_append,
    hzeros, decVal_zeros, Nat.zero_mul, Nat.zero_add]

theorem head?_dropWhile_zeros (s : Bytes) : (s.dropWhile (· == 48)).head? ≠ some 48 := by
  intro h
  have hfirst := List.head?_dropWhile_not (· == 48) s
  rw [h] at hfirst
  exact absurd hfirst (by simp)

theorem isDigit_marked {t : Bytes} (ht : ∀ c ∈ t, isDigit c = true) (n : ℕ) :
    ∀ c ∈ t.take n ++ [49], isDigit c = true := by
  intro c hc
  rcases List.mem_append.mp hc with hc | hc
  · exact ht c (List.mem_of_mem_take hc)
  · rw [List.mem_singleton.mp hc]
    rfl

/-- A one behind so many digits stands for all that follow them, unless these are zeros. -/
theorem roundsTo_of_marked {t : Bytes} (ht : ∀ c ∈ t, isDigit c = true)
    (hhead : t.head? ≠ some 48) {n m : ℕ} (hn : 772 ≤ n) (hm : t.length = n + m)
    (hrest : 0 < decVal (t.drop n)) {e : ℤ} {k : ℕ}
    (h : RoundsTo doubleAt kInfinity (decVal (t.take n ++ [49]) * 10 ^ (e + m - 1)) k) :
    RoundsTo doubleAt kInfinity (decVal t * 10 ^ e) k := by
  have hlen : (t.drop n).length = m := by rw [List.length_drop, hm, Nat.add_sub_cancel_left]
  have hfront : (t.take n).length = n := by
    rw [List.length_take, hm, Nat.min_eq_left (Nat.le_add_right n m)]
  have hsplit := decVal_append (t.take n) (t.drop n)
  have hbelow := decVal_lt fun c hc => ht c (List.mem_of_mem_drop (i := n) hc)
  have hlarge : 10 ^ 771 ≤ decVal (t.take n) := by
    have hpow := pow_le_decVal (s := t.take n) (fun c hc => ht c (List.mem_of_mem_take hc))
      (List.ne_nil_of_length_pos (by omega)) (by rwa [List.head?_take, if_neg (by omega)])
    rw [hfront] at hpow
    refine le_trans ?_ hpow
    exact pow_le_pow_right₀ (by norm_num) (by omega)
  rw [List.take_append_drop, hlen] at hsplit
  rw [hlen] at hbelow
  have hten : (0 : ℚ) < 10 ^ m := by positivity
  have hexact : (decVal t : ℚ) * 10 ^ e
      = (decVal (t.take n) + decVal (t.drop n) / 10 ^ m) * 10 ^ (e + m) := by
    rw [hsplit, zpow_add₀ (by norm_num), zpow_natCast]
    push_cast
    field_simp
  have hmarked : ((decVal (t.take n ++ [49]) : ℕ) : ℚ) * 10 ^ (e + m - 1)
      = (decVal (t.take n) + 1 / 10) * 10 ^ (e + m) := by
    rw [decVal_append_singleton, show digitVal 49 = 1 from rfl, zpow_sub_one₀ (by norm_num)]
    push_cast
    ring
  rw [hmarked] at h
  rw [hexact]
  exact roundsTo_of_behind hlarge (by norm_num) (by norm_num)
    (div_pos (by exact_mod_cast hrest) hten) ((div_lt_one hten).mpr (by exact_mod_cast hbelow)) h

section Trim

variable {s : Bytes}

/-- What is left of digits has no zero at either end. -/
structure Trimmed (s : Bytes) : Prop where
  digits : ∀ c ∈ s, isDigit c = true
  head : s.head? ≠ some 48
  last : s.getLast? ≠ some 48

/-- Zeros in front do not count, and those at the end are in the exponent. -/
theorem spec_trim (hs : ∀ c ∈ s, isDigit c = true) (exponent : ℤ) :
    Trimmed (stripZeros (s.dropWhile (· == 48)))
      ∧ (decVal (stripZeros (s.dropWhile (· == 48))) : ℚ) * 10 ^ (exponent
          + ((s.dropWhile (· == 48)).length - (stripZeros (s.dropWhile (· == 48))).length))
        = decVal s * 10 ^ exponent := by
  obtain ⟨m, hm⟩ := stripZeros_append (s.dropWhile (· == 48))
  have hlast := getLast?_stripZeros (s.dropWhile (· == 48))
  have hhead := head?_dropWhile_zeros s
  have hdigits : ∀ c ∈ s.dropWhile (· == 48), isDigit c = true := fun c hc =>
    hs c ((List.dropWhile_sublist _).subset hc)
  rw [← decVal_dropWhile s]
  generalize s.dropWhile (· == 48) = left at *
  generalize stripZeros left = right at *
  subst hm
  refine ⟨⟨fun c hc => hdigits c (List.mem_append_left _ hc), fun h => ?_, hlast⟩, ?_⟩
  · cases right with
    | nil => exact absurd h (by simp)
    | cons c right =>
      rw [List.head?_cons] at h
      rw [List.cons_append, List.head?_cons, h] at hhead
      exact absurd rfl hhead
  · rw [decVal_append_zeros, List.length_append, List.length_replicate, Nat.cast_add,
      add_sub_cancel_left, zpow_add₀ (by norm_num), zpow_natCast]
    push_cast
    ring

/-- A one in place of the digits behind the first 779. -/
theorem roundsTo_cut {t : Bytes} (hdigits : ∀ c ∈ t, isDigit c = true) (hhead : t.head? ≠ some 48)
    (hlast : t.getLast? ≠ some 48) (hlong : 780 < t.length) {e : ℤ} (hlow : -2 ^ 31 ≤ e)
    (hhigh : e + t.length < 2 ^ 31) :
    ∃ cut : Bytes, cutToMaxSignificantDigits t e = some (cut, e + (t.length - 780))
      ∧ (∀ c ∈ cut, isDigit c = true) ∧ cut.head? ≠ some 48 ∧ cut.length = 780
      ∧ ∀ k, RoundsTo doubleAt kInfinity (decVal cut * 10 ^ (e + (t.length - 780))) k →
        RoundsTo doubleAt kInfinity (decVal t * 10 ^ e) k := by
  obtain ⟨m, hm⟩ : ∃ m, t.length = 779 + m := ⟨t.length - 779, by omega⟩
  have hlen : (t.drop 779).length = m := by
    rw [List.length_drop, hm, Nat.add_sub_cancel_left]
  have hfront : (t.take 779).length = 779 := by
    rw [List.length_take]
    omega
  have habove : 0 < decVal (t.drop 779) := by
    refine decVal_pos (fun c hc => hdigits c (List.mem_of_mem_drop hc)) ?_
      (List.ne_nil_of_length_pos (by omega))
    rwa [List.getLast?_drop, if_neg (by omega)]
  have hfits : inInt (e + (t.length - 780)) = some (e + (t.length - 780)) :=
    inInt_of_lt (by omega) (by omega)
  refine ⟨t.take 779 ++ [49], ?_, isDigit_marked hdigits 779, ?_, ?_, fun k hk => ?_⟩
  · rw [cutToMaxSignificantDigits, kMaxSignificantDecimalDigits, Nat.cast_ofNat, hfits]
    rfl
  · rwa [List.head?_append_of_ne_nil _ (List.ne_nil_of_length_pos (by omega)), List.head?_take,
      if_neg (by norm_num)]
  · rw [List.length_append, hfront, List.length_singleton]
  · refine roundsTo_of_marked hdigits hhead (by norm_num) hm habove ?_
    rwa [show e + m - 1 = e + (t.length - 780) by omega]

/-- **What is cut off** decides nothing. -/
theorem roundsTo_trimAndCut (hs : ∀ c ∈ s, isDigit c = true) {exponent : ℤ}
    (hlow : -2 ^ 31 ≤ exponent) (hhigh : exponent + s.length < 2 ^ 31) :
    ∃ (t : Bytes) (e : ℤ), trimAndCut s exponent = some (t, e)
      ∧ (∀ c ∈ t, isDigit c = true) ∧ t.head? ≠ some 48
      ∧ t.length ≤ 780 ∧ -2 ^ 31 ≤ e ∧ e + t.length < 2 ^ 31
      ∧ ∀ k, RoundsTo doubleAt kInfinity (decVal t * 10 ^ e) k →
        RoundsTo doubleAt kInfinity (decVal s * 10 ^ exponent) k := by
  obtain ⟨htrimmed, hvalue⟩ := spec_trim hs exponent
  have hleft := (List.dropWhile_sublist (p := (· == 48)) (l := s)).length_le
  have hright := length_stripZeros_le (s.dropWhile (· == 48))
  rw [trimAndCut, ← stripZeros, ← hvalue]
  generalize s.dropWhile (· == 48) = left at *
  generalize stripZeros left = t at *
  obtain ⟨hdigits, hhead, hlast⟩ := htrimmed
  rw [inInt_of_lt (x := exponent + (left.length - t.length)) (by omega) (by omega)]
  have hlow' : -2 ^ 31 ≤ exponent + (left.length - t.length) := by omega
  have hhigh' : exponent + (left.length - t.length) + t.length < 2 ^ 31 := by omega
  generalize exponent + (left.length - t.length) = e at *
  rw [Option.bind_eq_bind, Option.bind_some, kMaxSignificantDecimalDigits]
  split
  · rename_i hlong
    obtain ⟨cut, hcut, hdigits', hhead', hlen, hround⟩ :=
      roundsTo_cut hdigits hhead hlast hlong hlow' hhigh'
    exact ⟨cut, _, hcut, hdigits', hhead', hlen.le, by omega, by omega, hround⟩
  · rename_i hshort
    exact ⟨t, e, rfl, hdigits, hhead, Nat.le_of_not_lt hshort, hlow', hhigh', fun _ => id⟩

end Trim


/-! ## The nearest double -/

/-- What is rounded beyond infinity is infinite. -/
theorem IsGuess.roundsTo_infinity {v : ℚ} {k : ℕ} (h : IsGuess v k false) (hk : kInfinity ≤ k) :
    RoundsTo doubleAt kInfinity v kInfinity := by
  refine ⟨le_rfl, ?_, fun hlt => absurd hlt (lt_irrefl _)⟩
  intro j hj
  obtain ⟨i, rfl⟩ : ∃ i, k = i + 1 := ⟨k - 1, by omega⟩
  have hle : boundary doubleAt j ≤ boundary doubleAt i :=
    (boundary_strictMono strictMono_doubleAt).monotone (by omega)
  exact Or.inl (hle.trans_lt (h.above rfl i rfl))

theorem powers_at_the_ends : doubleAt kInfinity ≤ 10 ^ (309 : ℤ)
    ∧ (10 : ℚ) ^ (-324 : ℤ) ≤ boundary doubleAt 0 := by
  rw [boundary_doubleAt]
  decide +kernel

section Result

variable {s : Bytes}

/-- **The guess** is the nearest double, or one of the two around the number. -/
theorem spec_computeGuess (hs : ∀ c ∈ s, isDigit c = true) (hhead : s.head? ≠ some 48)
    {exponent : ℤ} (hlow : -2 ^ 31 ≤ exponent) (hhigh : exponent + s.length < 2 ^ 31) :
    ∃ guess : Double × Bool, computeGuess s exponent = some guess
      ∧ (guess.2 = true → RoundsTo doubleAt kInfinity (decVal s * 10 ^ exponent) guess.1.d64)
      ∧ (guess.2 = false → -324 < exponent + s.length ∧ exponent + s.length ≤ 309
        ∧ guess.1.d64 < kInfinity ∧ IsGuess (decVal s * 10 ^ exponent) guess.1.d64 false) := by
  obtain ⟨hlarge, hsmall⟩ := powers_at_the_ends
  have hten : (0 : ℚ) < 10 ^ exponent := zpow_pos (by norm_num) _
  rw [computeGuess, kMaxDecimalPower, kMinDecimalPower]
  by_cases hnil : s.length = 0
  · rw [if_pos hnil, List.eq_nil_of_length_eq_zero hnil, decVal_nil, Nat.cast_zero, zero_mul]
    refine ⟨_, rfl, fun _ => roundsTo_zero (le_trans ?_ hsmall), fun h => absurd h (by simp)⟩
    exact (zpow_pos (by norm_num) _).le
  have hne : s ≠ [] := fun h => hnil (by rw [h, List.length_nil])
  rw [if_neg hnil, inInt_of_lt (x := exponent + s.length) (by omega) hhigh, Option.bind_eq_bind,
    Option.bind_some, inInt_of_lt (x := exponent + s.length - 1) (by omega) (by omega),
    Option.bind_some]
  by_cases hmax : exponent + s.length - 1 ≥ 309
  · rw [if_pos hmax]
    refine ⟨_, rfl, fun _ => ?_, fun h => absurd h (by simp)⟩
    have hvalue : (10 : ℚ) ^ (309 : ℤ) ≤ decVal s * 10 ^ exponent := by
      calc (10 : ℚ) ^ (309 : ℤ) ≤ 10 ^ (((s.length - 1 : ℕ) : ℤ) + exponent) :=
            zpow_le_zpow_right₀ (by norm_num) (by omega)
        _ = (10 ^ (s.length - 1) : ℕ) * 10 ^ exponent := by
            rw [zpow_add₀ (by norm_num), zpow_natCast]
            push_cast
            rfl
        _ ≤ decVal s * 10 ^ exponent :=
            mul_le_mul_of_nonneg_right (Nat.cast_le.mpr (pow_le_decVal hs hne hhead)) hten.le
    rw [Double.infinity, Double.d64_ofBits le_rfl]
    exact .of_top_le strictMono_doubleAt (hlarge.trans hvalue)
  rw [if_neg hmax]
  by_cases hmin : exponent + s.length ≤ -324
  · rw [if_pos hmin]
    refine ⟨_, rfl, fun _ => roundsTo_zero (le_trans ?_ hsmall), fun h => absurd h (by simp)⟩
    calc (decVal s : ℚ) * 10 ^ exponent ≤ (10 ^ s.length : ℕ) * 10 ^ exponent :=
          mul_le_mul_of_nonneg_right (Nat.cast_le.mpr (decVal_lt hs).le) hten.le
      _ = 10 ^ ((s.length : ℤ) + exponent) := by
          rw [zpow_add₀ (by norm_num), zpow_natCast]
          push_cast
          rfl
      _ ≤ 10 ^ (-324 : ℤ) := zpow_le_zpow_right₀ (by norm_num) (by omega)
  rw [if_neg hmin]
  cases hdouble : doubleStrtod s exponent with
  | some guess =>
    exact ⟨_, rfl, fun _ => roundsTo_doubleStrtod hs hdouble, fun h => absurd h (by simp)⟩
  | none =>
    obtain ⟨k, hk, hguess⟩ := isGuess_diyFpStrtod hs hne hhead
      (show exponent + s.length - 1 < 309 by omega)
    generalize diyFpStrtod s exponent = guess at *
    refine ⟨_, rfl, ?_⟩
    dsimp only
    cases hcertain : guess.2 with
    | true =>
      rw [Bool.true_or, hk]
      exact ⟨fun _ => hguess.roundsTo hcertain, fun h => absurd h (by simp)⟩
    | false =>
      rw [hcertain] at hguess
      rw [Bool.false_or, decide_eq_true_eq, decide_eq_false_iff_not]
      rcases le_or_gt kInfinity k with htop | hlt
      · rw [min_eq_left htop] at hk
        rw [hk]
        exact ⟨fun _ => hguess.roundsTo_infinity htop, fun h => absurd (Double.eq_of_d64_eq (by
          rw [hk, Double.infinity, Double.d64_ofBits le_rfl])) h⟩
      · rw [min_eq_right hlt.le] at hk
        rw [hk]
        refine ⟨fun h => ?_, fun _ => ⟨by omega, by omega, hlt, hguess⟩⟩
        rw [h, Double.infinity, Double.d64_ofBits le_rfl] at hk
        omega

/-- The number over the upper boundary, and a double behind the guess. -/
theorem spec_nextDouble {v : Double} (h : v.d64 < kInfinity) : v.nextDouble.d64 = v.d64 + 1 := by
  have hpositive : v.isNegative ≠ true := by
    rw [Double.isNegative, Ne, decide_eq_true_eq]
    rw [Double.kInfinity_eq] at h
    omega
  rw [Double.nextDouble, if_neg h.ne, if_neg fun hneg => hpositive hneg.1, if_neg hpositive,
    Double.d64_ofBits h]

theorem even_significand {v : Double} (h : v.d64 < kInfinity) :
    v.significand % 2 = 0 ↔ Even v.d64 := by
  rw [(Double.parts_eq (by rw [Double.kInfinity_eq] at h; omega)).1, sigAt, Nat.even_iff]
  omega

/-- `Strtod` returns what the digits are rounded to. -/
theorem spec_strtod (hs : ∀ c ∈ s, isDigit c = true) {exponent : ℤ} (hlen : s.length < 2 ^ 31)
    (hlow : -2 ^ 31 ≤ exponent) (hhigh : exponent + s.length < 2 ^ 31) :
    ∃ v, strtod s exponent = some v
      ∧ RoundsTo doubleAt kInfinity (decVal s * 10 ^ exponent) v.d64 := by
  obtain ⟨t, e, htrim, hdigits, hhead, hshort, hlow', hhigh', hcut⟩ :=
    roundsTo_trimAndCut hs hlow hhigh
  obtain ⟨guess, hfound, hcertain, hopen⟩ := spec_computeGuess hdigits hhead hlow' hhigh'
  suffices h : ∃ v, strtod s exponent = some v
      ∧ RoundsTo doubleAt kInfinity (decVal t * 10 ^ e) v.d64 by
    obtain ⟨v, hv, hround⟩ := h
    exact ⟨v, hv, hcut _ hround⟩
  rw [strtod, inInt_of_lt (x := (s.length : ℤ)) (by omega) (by omega), Option.bind_eq_bind,
    Option.bind_some, htrim, Option.bind_eq_bind, Option.bind_some]
  dsimp only
  rw [hfound, Option.bind_eq_bind, Option.bind_some]
  split
  · rename_i h
    exact ⟨_, rfl, hcertain h⟩
  · rename_i h
    obtain ⟨habove324, hbelow309, hlt, hguess⟩ := hopen (Bool.eq_false_of_not_eq_true h)
    have hparts := Double.parts_eq (v := guess.1) (by rw [Double.kInfinity_eq] at hlt; omega)
    have hnext := spec_nextDouble hlt
    have hboundary : (guess.1.upperBoundary.f : ℚ) * 2 ^ guess.1.upperBoundary.e
        = boundary doubleAt guess.1.d64 := by
      rw [Double.upperBoundary, hparts.1, hparts.2, boundary_doubleAt]
    have hbits : guess.1.upperBoundary.f < 2 ^ 64 := by
      have := sigAt_lt guess.1.d64
      rw [Double.upperBoundary, hparts.1]
      dsimp only
      omega
    obtain ⟨comparison, hcompare, hless, hmore⟩ :=
      compareBufferWithDiyFp_iff hdigits hshort habove324 hbelow309 hbits
    rw [hboundary] at hless hmore
    rw [hcompare, Option.bind_some]
    have hbelow : NotBelow doubleAt (decVal t * 10 ^ e) guess.1.d64 := fun j hj =>
      Or.inl (hguess.above rfl j hj)
    have habove : NotAbove doubleAt (decVal t * 10 ^ e) (guess.1.d64 + 1) :=
      Or.inl (hguess.below rfl)
    split_ifs with h₁ h₂ h₃
    · exact ⟨_, rfl, hlt.le, hbelow, fun _ => Or.inl (hless.mp h₁)⟩
    · refine ⟨_, rfl, ?_⟩
      rw [hnext]
      exact ⟨hlt, .of_lt (hmore.mp h₂), fun _ => habove⟩
    · -- on the boundary itself
      have heq := le_antisymm (not_lt.mp fun h => h₂ (hmore.mpr h))
        (not_lt.mp fun h => h₁ (hless.mpr h))
      exact ⟨_, rfl, hlt.le, hbelow, fun _ => Or.inr ⟨heq, (even_significand hlt).mp h₃⟩⟩
    · have heq := le_antisymm (not_lt.mp fun h => h₂ (hmore.mpr h))
        (not_lt.mp fun h => h₁ (hless.mpr h))
      refine ⟨_, rfl, ?_⟩
      rw [hnext]
      refine ⟨hlt, ?_, fun _ => habove⟩
      intro j hj
      obtain rfl := Nat.succ.inj hj
      exact Or.inr ⟨heq.symm, Nat.even_add_one.mpr fun h => h₃ ((even_significand hlt).mpr h)⟩

/-- **`Strtod`**, of digits in a `Vector` and an exponent that stays an `int` when their number is
added, finds the nearest double and no other: halves to the even one, and infinity from halfway over
the largest double on. -/
theorem strtod_eq_iff (hs : ∀ c ∈ s, isDigit c = true) {exponent : ℤ} (hlen : s.length < 2 ^ 31)
    (hlow : -2 ^ 31 ≤ exponent) (hhigh : exponent + s.length < 2 ^ 31) {k : ℕ} :
    (strtod s exponent).map Double.d64 = some k
      ↔ RoundsTo doubleAt kInfinity (decVal s * 10 ^ exponent) k := by
  obtain ⟨v, hv, hresult⟩ := spec_strtod hs hlen hlow hhigh
  rw [hv, Option.map_some, Option.some_inj]
  constructor
  · rintro rfl
    exact hresult
  · exact hresult.unique strictMono_doubleAt

/-- Halfway between two doubles, by large numbers. -/
theorem strtod_eq_iff_halfway :
    RoundsTo doubleAt kInfinity (decVal (lit "9007199254740993") * 10 ^ (0 : ℤ))
      0x4340000000000000 :=
  (strtod_eq_iff (List.all_eq_true.mp (by decide +kernel)) (by decide) (by decide)
    (by decide)).mp (by decide +kernel)

end Result

end S4LibLite

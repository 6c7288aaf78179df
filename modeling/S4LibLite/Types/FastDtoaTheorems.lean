import S4LibLite.Types.FastDtoa
import S4LibLite.Types.PowerEstimates

/-!
# Digits in sixty-four bits are correctly rounded where there are any

The product of a double and a cached power is off by less than one unit of its last place, and the
digits are written for the product. `RoundWeedCounted` lets them pass only where every number within
the error is rounded to the same digits.

* `times_eq`, `abs_sub_times_lt`, the product and its error;
* `spec_integralLoop`, `spec_fractionalLoop`, the two loops;
* `roundedDigits_roundWeedCounted`, the rounding;
* `roundedDigits_fastDtoaCounted`, what `FastDtoa` returns is the number, rounded.
-/

namespace S4LibLite

open Rounding

/-! ## The product -/

/-- The product is the upper half of the exact one, rounded. -/
theorem times_eq {x y : DiyFp} (hx : x.f < 2 ^ 64) (hy : y.f < 2 ^ 64) :
    x.times y = ⟨(x.f * y.f + 2 ^ 63) / 2 ^ 64, x.e + y.e + 64⟩ := by
  have hxs := Nat.div_add_mod x.f (2 ^ 32)
  have hys := Nat.div_add_mod y.f (2 ^ 32)
  rw [DiyFp.times]
  generalize ha : x.f / 2 ^ 32 = a at *
  generalize hb : x.f % 2 ^ 32 = b at *
  generalize hc : y.f / 2 ^ 32 = c at *
  generalize hd : y.f % 2 ^ 32 = d at *
  have hprod : x.f * y.f = a * c * 2 ^ 64 + (a * d + b * c) * 2 ^ 32 + b * d := by
    rw [← hxs, ← hys]
    ring
  have hlt : x.f * y.f ≤ (2 ^ 64 - 1) * (2 ^ 64 - 1) :=
    Nat.mul_le_mul (Nat.le_sub_one_of_lt hx) (Nat.le_sub_one_of_lt hy)
  have hquot : a * c + a * d / 2 ^ 32 + b * c / 2 ^ 32
      + (b * d / 2 ^ 32 + a * d % 2 ^ 32 + b * c % 2 ^ 32 + 2 ^ 31) / 2 ^ 32
      = (x.f * y.f + 2 ^ 63) / 2 ^ 64 := by
    rw [hprod]
    omega
  rw [hquot, Nat.mod_eq_of_lt (by omega)]

/-- The error of a product: half a unit from the power and half a unit from rounding. -/
theorem abs_sub_times_lt {w : DiyFp} {c : CachedPower} (hw : w.f < 2 ^ 64)
    (hc : cachedPowerOk c = true) :
    |(w.f * 2 ^ w.e : ℚ) * 10 ^ c.decimalExponent / 2 ^ (w.e + c.binaryExponent + 64)
        - (w.times ⟨c.significand, c.binaryExponent⟩).f| < 1 := by
  obtain ⟨-, hhigh, herror⟩ := accuracy_of_cachedPowerOk hc
  have hscale : (w.f * 2 ^ w.e : ℚ) * 10 ^ c.decimalExponent / 2 ^ (w.e + c.binaryExponent + 64)
      = w.f * (10 ^ c.decimalExponent / 2 ^ c.binaryExponent) / 2 ^ 64 := by
    rw [zpow_add₀ (by norm_num), zpow_add₀ (by norm_num)]
    have := zpow_pos (show (0 : ℚ) < 2 by norm_num) w.e
    have := zpow_pos (show (0 : ℚ) < 2 by norm_num) c.binaryExponent
    norm_num
    field_simp
  rw [hscale, times_eq hw hhigh]
  dsimp only
  generalize hpower : (10 : ℚ) ^ c.decimalExponent / 2 ^ c.binaryExponent = power at *
  have hdiv := Nat.div_add_mod (w.f * c.significand + 2 ^ 63) (2 ^ 64)
  have hmod := Nat.mod_lt (w.f * c.significand + 2 ^ 63) (show 0 < 2 ^ 64 by norm_num)
  generalize (w.f * c.significand + 2 ^ 63) / 2 ^ 64 = result at *
  generalize (w.f * c.significand + 2 ^ 63) % 2 ^ 64 = rest at *
  have hdiv' : (2 ^ 64 * result + rest : ℚ) = w.f * c.significand + 2 ^ 63 := by exact_mod_cast hdiv
  have hrest : (rest : ℚ) < 2 ^ 64 := by exact_mod_cast hmod
  have hrest0 : (0 : ℚ) ≤ rest := Nat.cast_nonneg _
  have hw' : (w.f : ℚ) < 2 ^ 64 := by exact_mod_cast hw
  have hw0 : (0 : ℚ) ≤ w.f := Nat.cast_nonneg _
  have hclose : |(w.f : ℚ) * (power - c.significand)| < 2 ^ 63 := by
    rw [abs_mul, abs_of_nonneg hw0]
    calc (w.f : ℚ) * |power - c.significand| ≤ w.f * (1 / 2) :=
          mul_le_mul_of_nonneg_left herror hw0
      _ < 2 ^ 63 := by linarith
  obtain ⟨hlow, hupp⟩ := abs_lt.mp hclose
  rw [abs_lt, lt_sub_iff_add_lt, sub_lt_iff_lt_add, lt_div_iff₀ (by norm_num),
    div_lt_iff₀ (by norm_num)]
  constructor <;> nlinarith

/-- A product of normalized numbers loses one bit at most. -/
theorem times_f_bounds {x y : DiyFp} (hx : 2 ^ 63 ≤ x.f) (hx64 : x.f < 2 ^ 64) (hy : 2 ^ 63 ≤ y.f)
    (hy64 : y.f < 2 ^ 64) : 2 ^ 62 ≤ (x.times y).f ∧ (x.times y).f < 2 ^ 64 := by
  rw [times_eq hx64 hy64]
  have hlow : 2 ^ 63 * 2 ^ 63 ≤ x.f * y.f := Nat.mul_le_mul hx hy
  have hhigh : x.f * y.f ≤ (2 ^ 64 - 1) * (2 ^ 64 - 1) :=
    Nat.mul_le_mul (Nat.le_sub_one_of_lt hx64) (Nat.le_sub_one_of_lt hy64)
  dsimp only
  omega

/-! ## The digits -/

/-- The guess for the number of digits, from the number of bits. -/
theorem biggestPowerTen_table : ∀ bits : Fin 33, 4 ≤ bits.val →
    1 ≤ (bits.val + 1) * 1233 / 2 ^ 12 ∧ (bits.val + 1) * 1233 / 2 ^ 12 ≤ 9
      ∧ 10 ^ ((bits.val + 1) * 1233 / 2 ^ 12 - 1) ≤ 2 ^ (bits.val - 2)
      ∧ 2 ^ bits.val ≤ 10 ^ ((bits.val + 1) * 1233 / 2 ^ 12 + 1) := by decide

theorem kSmallPowersOfTen_eq : ∀ g : Fin 10, kSmallPowersOfTen.getD (g.val + 1) 0 = 10 ^ g.val := by
  decide

/-- The power of ten at the first digit of a number of so many bits, up to two of them zeros. -/
theorem spec_biggestPowerTen {number bits : ℕ} (hmin : 4 ≤ bits) (hmax : bits ≤ 32)
    (hlow : 2 ^ (bits - 2) ≤ number) (hhigh : number < 2 ^ bits) :
    0 < (biggestPowerTen number bits).2
      ∧ (biggestPowerTen number bits).1 = 10 ^ ((biggestPowerTen number bits).2 - 1)
      ∧ (biggestPowerTen number bits).1 ≤ number
      ∧ number < 10 ^ (biggestPowerTen number bits).2 := by
  obtain ⟨hg1, hg9, hbelow, habove⟩ := biggestPowerTen_table ⟨bits, by omega⟩ hmin
  rw [biggestPowerTen]
  dsimp only at hg1 hg9 hbelow habove ⊢
  generalize (bits + 1) * 1233 / 2 ^ 12 = g at *
  have hguess := kSmallPowersOfTen_eq ⟨g, by omega⟩
  have hprev := kSmallPowersOfTen_eq ⟨g - 1, by omega⟩
  dsimp only at hguess hprev
  rw [Nat.sub_add_cancel hg1] at hprev
  rw [hguess]
  split
  · rename_i hsmall
    rw [Nat.add_sub_cancel, hprev]
    exact ⟨hg1, rfl, hbelow.trans hlow, hsmall⟩
  · rename_i hbig
    rw [hguess, Nat.add_sub_cancel]
    exact ⟨Nat.succ_pos g, rfl, Nat.le_of_not_lt hbig, hhigh.trans_le habove⟩

/-- What the digits in front of the point leave. -/
structure IntegralsSpec (kappa requestedDigits integrals : ℕ) (r : Integrals) : Prop where
  digits : ∀ d ∈ r.buffer, isDigit d = true
  length_kappa : r.buffer.length + r.kappa = kappa
  length_requested : r.buffer.length + r.requestedDigits = requestedDigits
  divisor_eq : r.requestedDigits = 0 → r.divisor = 10 ^ r.kappa
  kappa_eq : r.requestedDigits ≠ 0 → r.kappa = 0
  integrals_eq : integrals = decVal r.buffer * 10 ^ r.kappa + r.integrals
  integrals_lt : r.integrals < 10 ^ r.kappa

/-- Digit by digit the part in front of the point is written. -/
theorem spec_integralLoop {kappa requestedDigits integrals divisor : ℕ}
    (hrequested : 0 < requestedDigits) (hlt : integrals < 10 ^ kappa)
    (hdivisor : 0 < kappa → divisor = 10 ^ (kappa - 1)) :
    IntegralsSpec kappa requestedDigits integrals
      (integralLoop kappa requestedDigits integrals divisor) := by
  induction kappa generalizing requestedDigits integrals divisor with
  | zero =>
    rw [integralLoop]
    refine ⟨fun d hd => absurd hd List.not_mem_nil, rfl, Nat.zero_add _,
      fun h => absurd h hrequested.ne', fun _ => rfl, ?_, hlt⟩
    rw [decVal_nil, Nat.zero_mul, Nat.zero_add]
  | succ kappa ih =>
    have hdiv := hdivisor (Nat.succ_pos kappa)
    rw [Nat.add_sub_cancel] at hdiv
    subst hdiv
    have hdigit : integrals / 10 ^ kappa < 10 := by
      rw [Nat.div_lt_iff_lt_mul (by positivity), ← pow_succ']
      exact hlt
    have hleft := Nat.mod_lt integrals (show 0 < 10 ^ kappa by positivity)
    have hsplit := Nat.div_add_mod integrals (10 ^ kappa)
    rw [integralLoop]
    split
    · rename_i hlast
      have hone : requestedDigits = 1 := by omega
      refine ⟨fun d hd => ?_, Nat.add_comm _ _, hone.symm, fun _ => rfl, fun h => absurd rfl h, ?_,
        hleft⟩
      · rw [List.mem_singleton.mp hd]
        exact isDigit_digitChar hdigit
      · rw [decVal_cons, digitVal_digitChar hdigit, List.length_nil, pow_zero, Nat.mul_one,
          decVal_nil, Nat.add_zero, Nat.mul_comm]
        exact hsplit.symm
    · rename_i hmore
      have hrest := @ih (requestedDigits - 1) (integrals % 10 ^ kappa) (10 ^ kappa / 10) (by omega)
        hleft
        fun hpos => by
          rw [← Nat.sub_add_cancel hpos, pow_succ, Nat.mul_div_cancel _ (by norm_num),
            Nat.add_sub_cancel]
      have hkappa := hrest.length_kappa
      have hreq := hrest.length_requested
      refine ⟨fun d hd => ?_, ?_, ?_, hrest.divisor_eq, hrest.kappa_eq, ?_, hrest.integrals_lt⟩
      · rcases List.mem_cons.mp hd with rfl | hd
        · exact isDigit_digitChar hdigit
        · exact hrest.digits d hd
      · dsimp only
        rw [List.length_cons]
        omega
      · dsimp only
        rw [List.length_cons]
        omega
      · rw [decVal_cons, digitVal_digitChar hdigit, Nat.add_mul, Nat.mul_assoc, ← pow_add, hkappa,
          Nat.add_assoc, ← hrest.integrals_eq, Nat.mul_comm]
        exact hsplit.symm

theorem head?_integralLoop {kappa : ℕ} (hkappa : 0 < kappa)
    (requestedDigits integrals divisor : ℕ) :
    (integralLoop kappa requestedDigits integrals divisor).buffer.head?
      = some (digitChar (integrals / divisor)) := by
  obtain ⟨kappa, rfl⟩ := Nat.exists_eq_succ_of_ne_zero hkappa.ne'
  rw [integralLoop]
  split <;> rfl

/-- What the digits behind the point leave. -/
structure FractionalsSpec (shift requestedDigits fractionals wError : ℕ) (r : Fractionals) :
    Prop where
  digits : ∀ d ∈ r.buffer, isDigit d = true
  length_requested : r.buffer.length + r.requestedDigits = requestedDigits
  wError_eq : r.wError = wError * 10 ^ r.buffer.length
  fractionals_eq :
    fractionals * 10 ^ r.buffer.length = decVal r.buffer * 2 ^ shift + r.fractionals
  fractionals_lt : r.fractionals < 2 ^ shift

theorem fractionalsSpec_nil {shift fractionals : ℕ} (hlt : fractionals < 2 ^ shift)
    (requestedDigits wError : ℕ) : FractionalsSpec shift requestedDigits fractionals wError
      ⟨[], requestedDigits, fractionals, wError⟩ :=
  ⟨fun d hd => absurd hd List.not_mem_nil, Nat.zero_add _, (Nat.mul_one _).symm,
    by rw [decVal_nil, List.length_nil, pow_zero, Nat.mul_one, Nat.zero_mul, Nat.zero_add], hlt⟩

/-- One turn of the loop. -/
theorem FractionalsSpec.cons {shift requestedDigits fractionals wError : ℕ} {rest : Fractionals}
    (hlt : fractionals < 2 ^ shift)
    (h : FractionalsSpec shift requestedDigits (fractionals * 10 % 2 ^ shift) (wError * 10) rest) :
    FractionalsSpec shift (requestedDigits + 1) fractionals wError
      { rest with buffer := digitChar (fractionals * 10 / 2 ^ shift) :: rest.buffer } := by
  have hdigit : fractionals * 10 / 2 ^ shift < 10 := by
    rw [Nat.div_lt_iff_lt_mul (by positivity), Nat.mul_comm]
    exact Nat.mul_lt_mul_of_pos_left hlt (by norm_num)
  have hsplit := Nat.div_add_mod (fractionals * 10) (2 ^ shift)
  have hlen := h.length_requested
  refine ⟨fun d hd => ?_, ?_, ?_, ?_, h.fractionals_lt⟩
  · rcases List.mem_cons.mp hd with rfl | hd
    · exact isDigit_digitChar hdigit
    · exact h.digits d hd
  · change rest.buffer.length + 1 + rest.requestedDigits = requestedDigits + 1
    omega
  · rw [h.wError_eq, List.length_cons, pow_succ']
    ring
  · rw [decVal_cons, digitVal_digitChar hdigit, List.length_cons, Nat.add_mul, Nat.add_assoc,
      ← h.fractionals_eq]
    calc fractionals * 10 ^ (rest.buffer.length + 1)
        = fractionals * 10 * 10 ^ rest.buffer.length := by rw [pow_succ]; ring
      _ = (2 ^ shift * (fractionals * 10 / 2 ^ shift) + fractionals * 10 % 2 ^ shift)
            * 10 ^ rest.buffer.length := by rw [hsplit]
      _ = _ := by ring

/-- Digit by digit the fraction is written, with an error that grows tenfold. -/
theorem spec_fractionalLoop {shift fractionals : ℕ} (hlt : fractionals < 2 ^ shift)
    (requestedDigits wError : ℕ) :
    FractionalsSpec shift requestedDigits fractionals wError
      (fractionalLoop shift requestedDigits fractionals wError) := by
  induction requestedDigits generalizing fractionals wError with
  | zero => exact fractionalsSpec_nil hlt 0 wError
  | succ requestedDigits ih =>
    rw [fractionalLoop]
    split
    · exact (ih (Nat.mod_lt _ (by positivity)) (wError * 10)).cons hlt
    · exact fractionalsSpec_nil hlt _ wError

/-! ## The rounding -/

/-- Where the buffer passes, every number within the error is rounded to the same digits. -/
theorem roundedDigits_roundWeedCounted {buffer : Bytes} {rest tenKappa unit : ℕ} {x : ℚ} {k : ℤ}
    (hne : buffer ≠ []) (hdigits : ∀ d ∈ buffer, isDigit d = true)
    (hfirst : buffer.head? ≠ some 48) (hrest : rest < tenKappa)
    (hclose : |x - (decVal buffer * tenKappa + rest : ℕ)| < unit)
    (hlarge : decVal buffer = 10 ^ (buffer.length - 1) → 20 * unit ≤ tenKappa)
    {r : Bytes × ℤ} (h : roundWeedCounted buffer rest tenKappa unit = some r) :
    RoundedDigits buffer.length (x / tenKappa * 10 ^ k) r.1 (k + buffer.length + r.2) := by
  obtain ⟨s, c, rfl⟩ : ∃ s c, buffer = s ++ [c] :=
    ⟨buffer.dropLast, buffer.getLast hne, (List.dropLast_append_getLast hne).symm⟩
  have hs : ∀ d ∈ s, isDigit d = true := fun d hd => hdigits d (List.mem_append_left _ hd)
  have hc : isDigit c = true := hdigits c (List.mem_append_right _ (List.mem_singleton_self c))
  have hlow := pow_le_decVal hdigits hne hfirst
  rw [List.length_append, List.length_singleton, Nat.add_sub_cancel] at hlow hlarge
  have hT : (0 : ℚ) < tenKappa := by exact_mod_cast (Nat.zero_lt_of_lt hrest)
  obtain ⟨hbelow, habove⟩ := abs_lt.mp hclose
  push_cast at hbelow habove
  rw [roundWeedCounted] at h
  split at h
  · exact absurd h (by simp)
  split at h
  · exact absurd h (by simp)
  rename_i hunit hhalf
  have hhalf' : (2 * unit : ℚ) < tenKappa := by
    exact_mod_cast (show 2 * unit < tenKappa by omega)
  split at h
  · -- half a unit is not reached whatever the error is
    rename_i hdown
    have hdown' : (2 * rest + 2 * unit : ℚ) ≤ tenKappa := by
      exact_mod_cast (show 2 * rest + 2 * unit ≤ tenKappa by omega)
    obtain rfl := (Option.some.inj h).symm
    have hcarry := propagateCarry_of_isDigit s hc fun h => absurd (hs 58 (List.mem_of_head? h)) (by
      decide)
    have hresult := @roundedDigits_propagateCarry s c (x / tenKappa) k hs (Or.inl hc) hfirst ?_ ?_
    · rw [hcarry] at hresult
      rw [List.length_append, List.length_singleton]
      exact_mod_cast hresult
    · rw [Set.mem_Ico, le_div_iff₀ hT, div_lt_iff₀ hT]
      constructor <;> nlinarith [show (0 : ℚ) ≤ rest from Nat.cast_nonneg rest]
    · intro hD
      have h20 : (20 * unit : ℚ) ≤ tenKappa := by exact_mod_cast hlarge hD
      rw [hD] at hbelow
      push_cast at hbelow
      rw [le_div_iff₀ hT]
      nlinarith [show (0 : ℚ) ≤ rest from Nat.cast_nonneg rest]
  split at h
  · -- half a unit is reached whatever the error is
    rename_i hup
    have hup' : (tenKappa + 2 * unit : ℚ) ≤ 2 * rest := by
      exact_mod_cast (show tenKappa + 2 * unit ≤ 2 * rest by omega)
    have hrest' : (rest : ℚ) < tenKappa := by exact_mod_cast hrest
    obtain rfl := (Option.some.inj h).symm
    obtain ⟨hnext, hval⟩ := isDigit_succ hc
    have hD : decVal (s ++ [c + 1]) = decVal (s ++ [c]) + 1 := by
      rw [decVal_append_singleton, decVal_append_singleton, hval, Nat.add_assoc]
    have hhead : (s ++ [c + 1]).head? ≠ some 48 := by
      cases s with
      | nil => exact fun h48 => succ_ne_zero_char hc (Option.some.inj h48)
      | cons d s => exact hfirst
    have hresult := @roundedDigits_propagateCarry s (c + 1) (x / tenKappa) k hs hnext hhead ?_ ?_
    · rw [List.dropLast_concat, List.getLastD_concat, List.length_append, List.length_singleton]
      exact_mod_cast hresult
    · rw [hD, Set.mem_Ico, le_div_iff₀ hT, div_lt_iff₀ hT]
      push_cast
      constructor <;> nlinarith
    · intro hpow
      omega
  · exact absurd h (by simp)

/-! ## The number -/

/-- So many digits of a product have units that are far larger than its error. -/
theorem unit_small {w D tenKappa rest unit : ℕ} (hlow : 2 ^ 62 ≤ w) (hD : D ≤ 10 ^ 17)
    (hsplit : w * unit = D * tenKappa + rest) (hrest : rest < tenKappa) :
    20 * unit ≤ tenKappa := by
  have h1 : 2 ^ 62 * unit ≤ w * unit := Nat.mul_le_mul_right _ hlow
  have h2 : D * tenKappa ≤ 10 ^ 17 * tenKappa := Nat.mul_le_mul_right _ hD
  omega

/-- The digits of a product that is off by less than one unit. -/
theorem roundedDigits_digitGenCounted {w : DiyFp} {n : ℕ} {x : ℚ} {k : ℤ} (hn : 0 < n)
    (hn18 : n ≤ 18) (hlow : 2 ^ 62 ≤ w.f) (hhigh : w.f < 2 ^ 64) (hmin : -60 ≤ w.e)
    (hmax : w.e ≤ -32) (hclose : |x - w.f| < 1) {r : Bytes × ℤ}
    (h : digitGenCounted w n = some r) :
    RoundedDigits n (x * 2 ^ w.e * 10 ^ k) r.1 (k + n + r.2) := by
  obtain ⟨shift, hshift⟩ : ∃ shift : ℕ, w.e = -(shift : ℤ) := ⟨(-w.e).toNat, by omega⟩
  have hs32 : 32 ≤ shift := by omega
  have hs60 : shift ≤ 60 := by omega
  have hsplit := Nat.div_add_mod w.f (2 ^ shift)
  have hfrac := Nat.mod_lt w.f (show 0 < 2 ^ shift by positivity)
  have hilow : 2 ^ (64 - shift - 2) ≤ w.f / 2 ^ shift := by
    rw [Nat.le_div_iff_mul_le (by positivity), ← pow_add,
      show 64 - shift - 2 + shift = 62 by omega]
    exact hlow
  have hihigh : w.f / 2 ^ shift < 2 ^ (64 - shift) := by
    rw [Nat.div_lt_iff_lt_mul (by positivity), ← pow_add, show 64 - shift + shift = 64 by omega]
    exact hhigh
  obtain ⟨hkappa, hpower, hple, hpgt⟩ := spec_biggestPowerTen (by omega) (by omega) hilow hihigh
  have hwhole := spec_integralLoop hn hpgt fun _ => hpower
  have hhead := head?_integralLoop hkappa n (w.f / 2 ^ shift)
    (biggestPowerTen (w.f / 2 ^ shift) (64 - shift)).1
  have hdigit0 : 0 < w.f / 2 ^ shift / (biggestPowerTen (w.f / 2 ^ shift) (64 - shift)).1 :=
    Nat.div_pos hple (by rw [hpower]; positivity)
  have hdigit9 : w.f / 2 ^ shift / (biggestPowerTen (w.f / 2 ^ shift) (64 - shift)).1 < 10 := by
    rw [hpower, Nat.div_lt_iff_lt_mul (by positivity), ← pow_succ', Nat.sub_add_cancel hkappa]
    exact hpgt
  rw [digitGenCounted, hshift, neg_neg, Int.toNat_natCast] at h
  dsimp only at h
  generalize biggestPowerTen (w.f / 2 ^ shift) (64 - shift) = power at *
  generalize integralLoop power.2 n (w.f / 2 ^ shift) power.1 = whole at *
  have hfirst : whole.buffer.head? ≠ some 48 := by
    rw [hhead]
    exact fun h48 => digitChar_ne_zero_char hdigit0 hdigit9.le (Option.some.inj h48)
  have hne : whole.buffer ≠ [] := fun hnil => by
    rw [hnil] at hhead
    exact absurd hhead (by simp)
  have hreq := hwhole.length_requested
  have hvalue := hwhole.integrals_eq
  have hleft := hwhole.integrals_lt
  rw [hshift, zpow_neg, zpow_natCast]
  split at h
  · -- the digits end in front of the point
    rename_i hdone
    obtain ⟨rounded, hround, rfl⟩ := Option.map_eq_some_iff.mp h
    rw [hwhole.divisor_eq hdone] at hround
    have hlen : whole.buffer.length = n := by omega
    have hrest : whole.integrals * 2 ^ shift + w.f % 2 ^ shift < 10 ^ whole.kappa * 2 ^ shift := by
      calc whole.integrals * 2 ^ shift + w.f % 2 ^ shift
          < (whole.integrals + 1) * 2 ^ shift := by rw [Nat.add_mul, Nat.one_mul]; omega
        _ ≤ 10 ^ whole.kappa * 2 ^ shift := Nat.mul_le_mul_right _ hleft
    have hw : w.f * 1 = decVal whole.buffer * (10 ^ whole.kappa * 2 ^ shift)
        + (whole.integrals * 2 ^ shift + w.f % 2 ^ shift) := by
      rw [Nat.mul_one, ← Nat.mul_assoc, ← Nat.add_assoc, ← Nat.add_mul, ← hvalue, Nat.mul_comm]
      exact hsplit.symm
    have hresult := @roundedDigits_roundWeedCounted whole.buffer _ _ 1 x (k + whole.kappa) hne
      hwhole.digits hfirst hrest (by rw [← hw, Nat.mul_one, Nat.cast_one]; exact hclose)
      (fun hD => unit_small hlow (by
        rw [hD, hlen]
        exact Nat.pow_le_pow_right (by norm_num) (by omega)) hw hrest) _ hround
    rw [hlen] at hresult
    convert hresult using 1
    · rw [zpow_add₀ (by norm_num), zpow_natCast]
      push_cast
      field_simp
    · ring
  · split at h
    · exact absurd h (by simp)
    rename_i hmore hdone
    rw [not_not] at hdone
    obtain ⟨rounded, hround, rfl⟩ := Option.map_eq_some_iff.mp h
    have hpart := spec_fractionalLoop hfrac whole.requestedDigits 1
    generalize fractionalLoop shift whole.requestedDigits (w.f % 2 ^ shift) 1 = part at *
    have hkappa0 := hwhole.kappa_eq hmore
    rw [hkappa0, pow_zero] at hleft hvalue
    rw [Nat.lt_one_iff.mp hleft, Nat.mul_one, Nat.add_zero] at hvalue
    have hpreq := hpart.length_requested
    have hlen : (whole.buffer ++ part.buffer).length = n := by
      rw [List.length_append]
      omega
    have hunit : part.wError = 10 ^ part.buffer.length := by rw [hpart.wError_eq, Nat.one_mul]
    have hw : w.f * part.wError
        = decVal (whole.buffer ++ part.buffer) * 2 ^ shift + part.fractionals := by
      rw [decVal_append, Nat.add_mul, Nat.add_assoc, ← hpart.fractionals_eq, hunit, ← hvalue,
        Nat.mul_right_comm, ← Nat.add_mul, Nat.mul_comm (w.f / 2 ^ shift), hsplit]
    have hresult := @roundedDigits_roundWeedCounted (whole.buffer ++ part.buffer) _ _ part.wError
      (x * part.wError) (k - part.buffer.length) (List.append_ne_nil_of_left_ne_nil hne _)
      (fun d hd => (List.mem_append.mp hd).elim (hwhole.digits d) (hpart.digits d))
      (by rwa [List.head?_append_of_ne_nil _ hne]) hpart.fractionals_lt ?_
      (fun hD => unit_small hlow (by
        rw [hD, hlen]
        exact Nat.pow_le_pow_right (by norm_num) (by omega)) hw hpart.fractionals_lt) _ hround
    · rw [hlen] at hresult
      convert hresult using 1
      · rw [zpow_sub₀ (by norm_num), zpow_natCast, hunit]
        push_cast
        field_simp
      · rw [hkappa0]
        push_cast
        ring
    · rw [← hw, Nat.cast_mul, ← sub_mul, abs_mul, Nat.abs_cast]
      have hpos : (0 : ℚ) < part.wError := by
        rw [hunit]
        positivity
      nlinarith

/-- What `FastDtoa` returns is the number, rounded to as many digits; eighteen is more than the
precision of the powers allows to tell apart. -/
theorem roundedDigits_fastDtoaCounted {v : Double} (hfinite : v.isSpecial = false)
    (hpos : 0 < v.significand) {n : ℕ} (hn : 0 < n) (hn18 : n ≤ 18) {r : Bytes × ℤ}
    (h : fastDtoaCounted v n = some r) : RoundedDigits n v.magnitude r.1 r.2 := by
  have hf := v.significand_lt
  have hemin := v.exponent_ge
  have hemax := v.exponent_le hfinite
  obtain ⟨s, hs, hloop, hlow, hhigh⟩ := normalizeLoop_spec hpos hf v.exponent
  have hw : v.asNormalizedDiyFp = ⟨v.significand * 2 ^ s * 2 ^ 11, v.exponent - s - 11⟩ := by
    rw [Double.asNormalizedDiyFp, hloop]
    norm_num
  have hmag : v.magnitude = v.asNormalizedDiyFp.f * 2 ^ v.asNormalizedDiyFp.e := by
    rw [hw, Double.magnitude, zpow_sub₀ (by norm_num), zpow_sub₀ (by norm_num), zpow_natCast]
    push_cast
    field_simp
  obtain ⟨digits, hgrisu, rfl⟩ := Option.map_eq_some_iff.mp h
  rw [grisu3Counted] at hgrisu
  obtain ⟨counted, hcounted, rfl⟩ := Option.map_eq_some_iff.mp hgrisu
  have hlow' : 2 ^ 63 ≤ v.asNormalizedDiyFp.f := by
    rw [hw]
    dsimp only
    omega
  have hhigh' : v.asNormalizedDiyFp.f < 2 ^ 64 := by
    rw [hw]
    dsimp only
    omega
  obtain ⟨hok, hmin, hmax⟩ := @cachedPower_spec v.asNormalizedDiyFp.e
    (by rw [hw]; dsimp only; omega) (by rw [hw]; dsimp only; omega)
  generalize getCachedPowerForBinaryExponentRange _ = c at hok hmin hmax hcounted ⊢
  obtain ⟨hclow, hchigh, -⟩ := accuracy_of_cachedPowerOk hok
  have hclose := abs_sub_times_lt hhigh' hok
  have hbounds := @times_f_bounds v.asNormalizedDiyFp ⟨c.significand, c.binaryExponent⟩ hlow' hhigh'
    hclow hchigh
  have hexp : (v.asNormalizedDiyFp.times ⟨c.significand, c.binaryExponent⟩).e
      = v.asNormalizedDiyFp.e + c.binaryExponent + 64 := by
    rw [times_eq hhigh' hchigh]
  have hresult := @roundedDigits_digitGenCounted _ n _ (-c.decimalExponent) hn hn18 hbounds.1
    hbounds.2 (by rwa [hexp]) (by rwa [hexp]) hclose counted hcounted
  rw [hexp, ← hmag, div_mul_cancel₀ _ (zpow_pos (by norm_num) _).ne', mul_assoc,
    ← zpow_add₀ (by norm_num), add_neg_cancel, zpow_zero, mul_one] at hresult
  convert hresult using 1
  dsimp only
  rw [hresult.length_eq]
  ring

end S4LibLite
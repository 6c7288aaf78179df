import S4LibLite.Types.DoubleTextTheorems
import S4LibLite.Types.FixedDtoa
import Mathlib.Tactic.IntervalCases

/-!
# Digits behind the point are correctly rounded

Neither the sixty-four nor the hundred and twenty-eight bits overflow, so that both loops over a
fraction are one loop over natural numbers, whose digits and rest are the fraction itself.

* `fraction64Loop_eq`, `fraction128Loop_eq`, the loops against `fractionLoop`;
* `spec_fractionLoop`, the digits and the rest;
* `fixedDigits_spec`, every branch of `FastFixedDtoa`;
* `fastFixedDtoa_spec`, the digits are the number, rounded behind the point.
-/

namespace S4LibLite

open Rounding

/-! ## A hundred and twenty-eight bits -/

namespace UInt128

/-- Both halves fit into sixty-four bits. -/
structure Fits (a : UInt128) : Prop where
  high_lt : a.highBits < 2 ^ 64
  low_lt : a.lowBits < 2 ^ 64

/-- `Multiply`, where the product has room. -/
theorem spec_multiply {a : UInt128} {m : ℕ} (h : a.value * m < 2 ^ 128) :
    (a.multiply m).Fits ∧ (a.multiply m).value = a.value * m := by
  have hl := Nat.div_add_mod a.lowBits (2 ^ 32)
  have hh := Nat.div_add_mod a.highBits (2 ^ 32)
  have hprod : a.value * m = a.highBits / 2 ^ 32 * m * 2 ^ 96 + a.highBits % 2 ^ 32 * m * 2 ^ 64
      + a.lowBits / 2 ^ 32 * m * 2 ^ 32 + a.lowBits % 2 ^ 32 * m := by
    rw [value]
    nth_rewrite 1 [← hl, ← hh]
    ring
  rw [hprod] at h ⊢
  rw [value, multiply]
  dsimp only
  generalize a.highBits / 2 ^ 32 * m = h1 at *
  generalize a.highBits % 2 ^ 32 * m = h0 at *
  generalize a.lowBits / 2 ^ 32 * m = l1 at *
  generalize a.lowBits % 2 ^ 32 * m = l0 at *
  refine ⟨⟨?_, ?_⟩, ?_⟩
  · dsimp only
    omega
  · dsimp only
    omega
  · omega

/-- `Shift` to the right, of a number in the high word. -/
theorem spec_shift {f s : ℕ} (hf : f < 2 ^ 64) (hs : 0 < s) (hs64 : s ≤ 64) :
    ((UInt128.mk f 0).shift s).Fits ∧ ((UInt128.mk f 0).shift s).value = f * 2 ^ (64 - s) := by
  rw [shift, if_neg (by omega), if_neg (by omega)]
  rcases Nat.lt_or_eq_of_le hs64 with hlt | rfl
  · rw [if_neg (by omega), if_neg (by omega), Int.natAbs_natCast]
    dsimp only
    have hpow : 2 ^ s * 2 ^ (64 - s) = 2 ^ 64 := by
      rw [← pow_add]
      congr 1
      omega
    have hsplit : f * 2 ^ (64 - s) = f / 2 ^ s * 2 ^ 64 + f % 2 ^ s * 2 ^ (64 - s) := by
      conv_lhs => rw [← Nat.div_add_mod f (2 ^ s)]
      rw [← hpow]
      ring
    have hlow : f % 2 ^ s * 2 ^ (64 - s) < 2 ^ 64 := by
      rw [← hpow]
      exact Nat.mul_lt_mul_of_pos_right (Nat.mod_lt _ (by positivity)) (by positivity)
    have hmod : f * 2 ^ (64 - s) % 2 ^ 64 = f % 2 ^ s * 2 ^ (64 - s) := by
      rw [hsplit, Nat.mul_add_mod_self_right, Nat.mod_eq_of_lt hlow]
    rw [Nat.zero_div, Nat.zero_add, Nat.mod_mod, hmod]
    exact ⟨⟨(Nat.div_le_self _ _).trans_lt hf, hlow⟩, hsplit.symm⟩
  · rw [if_pos (by norm_num)]
    refine ⟨⟨by norm_num, hf⟩, ?_⟩
    rw [value, Nat.zero_mul, Nat.zero_add, Nat.sub_self, pow_zero, Nat.mul_one]

/-- The high part is the quotient, and the low one stays. -/
theorem spec_divModPowerOf2 {a : UInt128} (ha : a.Fits) {power : ℕ} (h : 64 ≤ power) :
    (a.divModPowerOf2 power).1.Fits ∧ (a.divModPowerOf2 power).1.value = a.value % 2 ^ power
      ∧ (a.divModPowerOf2 power).2 = a.value / 2 ^ power := by
  obtain ⟨k, rfl⟩ : ∃ k, power = k + 64 := ⟨power - 64, by omega⟩
  have hsub : a.highBits - a.highBits / 2 ^ k * 2 ^ k = a.highBits % 2 ^ k := by
    rw [Nat.mul_comm]
    have := Nat.div_add_mod a.highBits (2 ^ k)
    omega
  have hmod : a.value % 2 ^ (k + 64) = a.highBits % 2 ^ k * 2 ^ 64 + a.lowBits := by
    rw [value, pow_add, Nat.mul_comm (2 ^ k), Nat.mul_comm a.highBits]
    rw [Nat.mod_mul, Nat.mul_add_mod, Nat.mod_eq_of_lt ha.low_lt,
      Nat.mul_add_div (by norm_num), Nat.div_eq_of_lt ha.low_lt, Nat.add_zero, Nat.add_comm,
      Nat.mul_comm]
  have hdiv : a.value / 2 ^ (k + 64) = a.highBits / 2 ^ k := by
    rw [value, pow_add, Nat.mul_comm (2 ^ k), ← Nat.div_div_eq_div_mul, Nat.mul_comm a.highBits,
      Nat.mul_add_div (by norm_num), Nat.div_eq_of_lt ha.low_lt, Nat.add_zero]
  rw [divModPowerOf2, if_pos h, Nat.add_sub_cancel, hmod, hdiv]
  dsimp only
  rw [hsub]
  exact ⟨⟨(Nat.mod_le _ _).trans_lt ha.high_lt, ha.low_lt⟩, rfl, rfl⟩

/-- `BitAt`. -/
theorem bitAt_eq {a : UInt128} (ha : a.Fits) {position : ℕ} (h : 64 ≤ position) :
    a.bitAt position = a.value / 2 ^ position % 2 := by
  rw [bitAt, if_pos h, ← (spec_divModPowerOf2 ha h).2.2, divModPowerOf2, if_pos h]

theorem isZero_iff {a : UInt128} : a.isZero = true ↔ a.value = 0 := by
  rw [isZero, value, Bool.and_eq_true, beq_iff_eq, beq_iff_eq]
  omega

end UInt128

/-! ## Fractions -/

/-- The loop over a fraction `fractionals / 2 ^ point`, without bounds. -/
def fractionLoop : ℕ → ℕ → ℕ → Bytes × ℕ × ℕ
  | 0, fractionals, point => ([], fractionals, point)
  | fractionalCount + 1, fractionals, point =>
    if fractionals = 0 then ([], fractionals, point)
    else
      let rest := fractionLoop fractionalCount (fractionals * 5 % 2 ^ (point - 1)) (point - 1)
      (digitChar (fractionals * 5 / 2 ^ (point - 1)) :: rest.1, rest.2)

/-- There is room for a factor of five each time, until the point has moved by three. -/
def Room (bits fractionals point : ℕ) : Prop :=
  point + 3 ≤ bits ∨ fractionals * 5 ^ (point + 3 - bits) < 2 ^ (bits - 3)

theorem Room.mul_lt {bits fractionals point : ℕ} (hbits : 3 ≤ bits)
    (h : Room bits fractionals point) (hlt : fractionals < 2 ^ point) :
    fractionals * 5 < 2 ^ bits := by
  have hpow : 2 ^ bits = 2 ^ (bits - 3) * 8 := by
    conv_lhs => rw [← Nat.sub_add_cancel hbits, pow_add]
    norm_num
  have hsmall : fractionals < 2 ^ (bits - 3) := by
    rcases h with h | h
    · exact hlt.trans_le (Nat.pow_le_pow_right (by norm_num) (by omega))
    · exact (Nat.le_mul_of_pos_right _ (by positivity)).trans_lt h
  omega

/-- A digit less leaves room for the next. -/
theorem Room.step {bits fractionals point rest : ℕ} (h : Room bits fractionals point)
    (hpoint : 0 < point) (hrest : rest ≤ fractionals * 5) : Room bits rest (point - 1) := by
  by_cases hp : point - 1 + 3 ≤ bits
  · exact Or.inl hp
  · refine Or.inr (lt_of_le_of_lt (Nat.mul_le_mul_right _ hrest) ?_)
    rcases h with h | h
    · omega
    · rwa [Nat.mul_assoc, ← pow_succ', show point - 1 + 3 - bits + 1 = point + 3 - bits by omega]

theorem pos_of_lt_two_pow {n point : ℕ} (h : n < 2 ^ point) (hn : n ≠ 0) : 0 < point := by
  refine Nat.pos_of_ne_zero fun h0 => ?_
  rw [h0, pow_zero] at h
  omega

theorem fraction64Loop_eq (count : ℕ) {fractionals point : ℕ} (hlt : fractionals < 2 ^ point)
    (hroom : Room 64 fractionals point) :
    fraction64Loop count fractionals point = fractionLoop count fractionals point := by
  induction count generalizing fractionals point with
  | zero => rfl
  | succ count ih =>
    rw [fraction64Loop, fractionLoop]
    split
    · rfl
    · rename_i hne
      have hmod := Nat.mod_eq_of_lt (hroom.mul_lt (by norm_num) hlt)
      have hsub : fractionals * 5 - fractionals * 5 / 2 ^ (point - 1) * 2 ^ (point - 1)
          = fractionals * 5 % 2 ^ (point - 1) := by
        have := Nat.div_add_mod (fractionals * 5) (2 ^ (point - 1))
        rw [Nat.mul_comm (fractionals * 5 / 2 ^ (point - 1))]
        omega
      dsimp only
      rw [hmod, hsub, ih (Nat.mod_lt _ (by positivity))
        (hroom.step (pos_of_lt_two_pow hlt hne) (Nat.mod_le _ _))]

/-- The loop over a hundred and twenty-eight bits goes through the same numbers. -/
theorem fraction128Loop_eq (count : ℕ) {a : UInt128} {point : ℕ} (ha : a.Fits)
    (hlt : a.value < 2 ^ point) (hroom : Room 128 a.value point) (hpoint : 64 + count ≤ point) :
    (fraction128Loop count a point).2.1.Fits
      ∧ (fraction128Loop count a point).1 = (fractionLoop count a.value point).1
      ∧ (fraction128Loop count a point).2.1.value = (fractionLoop count a.value point).2.1
      ∧ (fraction128Loop count a point).2.2 = (fractionLoop count a.value point).2.2 := by
  induction count generalizing a point with
  | zero => exact ⟨ha, rfl, rfl, rfl⟩
  | succ count ih =>
    rw [fraction128Loop, fractionLoop, if_congr UInt128.isZero_iff rfl rfl]
    split
    · exact ⟨ha, rfl, rfl, rfl⟩
    · rename_i hne
      obtain ⟨hfits, hmul⟩ := UInt128.spec_multiply (hroom.mul_lt (by norm_num) hlt)
      obtain ⟨hfits', hmod, hdiv⟩ :=
        UInt128.spec_divModPowerOf2 hfits (show 64 ≤ point - 1 by omega)
      rw [hmul] at hmod hdiv
      obtain ⟨h1, h2, h3, h4⟩ := ih hfits' (by rw [hmod]; exact Nat.mod_lt _ (by positivity))
        (by rw [hmod]; exact hroom.step (pos_of_lt_two_pow hlt hne) (Nat.mod_le _ _))
        (show 64 + count ≤ point - 1 by omega)
      rw [hmod] at h2 h3 h4
      dsimp only
      rw [hdiv, h2, h3, h4]
      exact ⟨h1, rfl, rfl, rfl⟩

/-- What the loop leaves of a fraction. -/
structure FractionSpec (count fractionals point : ℕ) (r : Bytes × ℕ × ℕ) : Prop where
  digits : ∀ d ∈ r.1, isDigit d = true
  length_le : r.1.length ≤ count
  point_eq : r.2.2 + r.1.length = point
  rest_lt : r.2.1 < 2 ^ r.2.2
  value_eq : fractionals * 10 ^ r.1.length = decVal r.1 * 2 ^ point + r.2.1 * 2 ^ r.1.length
  /-- It stops early only where nothing is left. -/
  stop : r.1.length = count ∨ r.2.1 = 0

/-- Digit by digit the fraction is written. -/
theorem spec_fractionLoop (count : ℕ) {fractionals point : ℕ} (hlt : fractionals < 2 ^ point) :
    FractionSpec count fractionals point (fractionLoop count fractionals point) := by
  induction count generalizing fractionals point with
  | zero => exact ⟨fun d hd => absurd hd List.not_mem_nil, le_rfl, rfl, hlt, by simp [fractionLoop,
      decVal_nil], Or.inl rfl⟩
  | succ count ih =>
    rw [fractionLoop]
    split
    · rename_i h0
      exact ⟨fun d hd => absurd hd List.not_mem_nil, Nat.zero_le _, rfl, hlt,
        by simp [decVal_nil], Or.inr h0⟩
    · rename_i hne
      obtain ⟨p, rfl⟩ := Nat.exists_eq_succ_of_ne_zero (pos_of_lt_two_pow hlt hne).ne'
      rw [Nat.succ_eq_add_one, Nat.add_sub_cancel]
      have hdigit : fractionals * 5 / 2 ^ p < 10 := by
        rw [Nat.div_lt_iff_lt_mul (by positivity)]
        rw [Nat.succ_eq_add_one, pow_succ] at hlt
        omega
      have hsplit := Nat.div_add_mod (fractionals * 5) (2 ^ p)
      have hrest := ih (Nat.mod_lt (fractionals * 5) (show 0 < 2 ^ p by positivity))
      generalize fractionLoop count (fractionals * 5 % 2 ^ p) p = rest at hrest
      have hlen := hrest.length_le
      have hpoint := hrest.point_eq
      refine ⟨fun d hd => ?_, Nat.succ_le_succ hlen, ?_, hrest.rest_lt, ?_, ?_⟩
      · rcases List.mem_cons.mp hd with rfl | hd
        · exact isDigit_digitChar hdigit
        · exact hrest.digits d hd
      · dsimp only
        rw [List.length_cons]
        omega
      · dsimp only
        rw [decVal_cons, digitVal_digitChar hdigit, List.length_cons]
        calc fractionals * 10 ^ (rest.1.length + 1)
            = fractionals * 5 * 10 ^ rest.1.length * 2 := by rw [pow_succ]; ring
          _ = (2 ^ p * (fractionals * 5 / 2 ^ p) + fractionals * 5 % 2 ^ p)
                * 10 ^ rest.1.length * 2 := by rw [hsplit]
          _ = (2 ^ p * (fractionals * 5 / 2 ^ p)) * 10 ^ rest.1.length * 2
                + (fractionals * 5 % 2 ^ p * 10 ^ rest.1.length) * 2 := by ring
          _ = _ := by rw [hrest.value_eq, pow_succ, pow_succ]; ring
      · exact hrest.stop.imp (congrArg (· + 1)) id

/-! ## Rounding behind the point -/

/-- A number that has no digits behind the `i`-th, or is rounded there. -/
theorem round_mul_pow_div {v : ℚ} {i n D : ℕ} (hi : i ≤ n) (hround : round (v * 10 ^ i) = (D : ℤ))
    (hstop : i = n ∨ v * 10 ^ i = D) :
    (round (v * 10 ^ n) : ℚ) / 10 ^ n = D * 10 ^ (-(i : ℤ)) := by
  rw [zpow_neg, zpow_natCast, ← div_eq_mul_inv]
  rcases hstop with rfl | hexact
  · rw [hround, Int.cast_natCast]
  · have hint : v * 10 ^ n = ((D * 10 ^ (n - i) : ℕ) : ℚ) := by
      rw [Nat.cast_mul, ← hexact]
      push_cast
      rw [mul_assoc, ← pow_add, Nat.add_sub_cancel' hi]
    have hsplit : (10 : ℚ) ^ n = 10 ^ (n - i) * 10 ^ i := by
      rw [← pow_add, Nat.sub_add_cancel hi]
    rw [hint, round_natCast, hsplit]
    push_cast
    field_simp

/-- One is added at the last digit. -/
theorem spec_roundUp {buffer : Bytes} {decimalPoint : ℤ}
    (hdigits : ∀ d ∈ buffer, isDigit d = true) (hempty : buffer = [] → decimalPoint = 0) :
    (∀ d ∈ (roundUp buffer decimalPoint).1, isDigit d = true)
      ∧ ((roundUp buffer decimalPoint).1.length : ℤ)
        ≤ buffer.length + ((roundUp buffer decimalPoint).2 - decimalPoint)
      ∧ (decVal (roundUp buffer decimalPoint).1 : ℚ)
          * 10 ^ ((roundUp buffer decimalPoint).2 - (roundUp buffer decimalPoint).1.length)
        = (decVal buffer + 1 : ℕ) * 10 ^ (decimalPoint - buffer.length) := by
  rw [roundUp]
  split
  · rename_i hnil
    rw [hempty hnil, hnil]
    refine ⟨fun d hd => ?_, le_rfl, by rw [show decVal [49] = 1 from rfl]; simp [decVal_nil]⟩
    rw [List.mem_singleton.mp hd]
    rfl
  · rename_i hne
    obtain ⟨s, c, rfl⟩ : ∃ s c, buffer = s ++ [c] :=
      ⟨buffer.dropLast, buffer.getLast hne, (List.dropLast_append_getLast hne).symm⟩
    obtain ⟨hnext, hval⟩ :=
      isDigit_succ (hdigits c (List.mem_append_right _ (List.mem_singleton_self c)))
    obtain ⟨hlen, hall, ⟨k, hk, hvalue⟩, -⟩ :=
      propagateCarry_spec (fun d hd => hdigits d (List.mem_append_left _ hd)) hnext
    rw [List.dropLast_concat, List.getLastD_concat]
    dsimp only
    rw [hk, hlen, List.length_append, List.length_singleton]
    rw [decVal_append_singleton, hval, ← Nat.add_assoc, ← decVal_append_singleton] at hvalue
    refine ⟨hall, by push_cast; omega, ?_⟩
    rw [← hvalue, show decimalPoint + (k : ℤ) - (s.length + 1 : ℕ)
      = k + (decimalPoint - (s.length + 1 : ℕ)) by ring, zpow_add₀ (by norm_num), zpow_natCast]
    push_cast
    ring

/-- The digits of a fraction, put behind those of an integer and rounded. -/
theorem fixedDigits_of_fraction {buffer : Bytes} {count fractionals point : ℕ}
    (hbuffer : ∀ d ∈ buffer, isDigit d = true) {r : Bytes × ℕ × ℕ}
    (hr : FractionSpec count fractionals point r) :
    FixedDigits count (decVal buffer + fractionals / 2 ^ point)
      (if r.2.1 / 2 ^ (r.2.2 - 1) % 2 = 1 then roundUp (buffer ++ r.1) buffer.length
        else (buffer ++ r.1, (buffer.length : ℤ))).1
      (if r.2.1 / 2 ^ (r.2.2 - 1) % 2 = 1 then roundUp (buffer ++ r.1) buffer.length
        else (buffer ++ r.1, (buffer.length : ℤ))).2 := by
  have hpoint := hr.point_eq
  have hrest := hr.rest_lt
  have hall : ∀ d ∈ buffer ++ r.1, isDigit d = true := fun d hd =>
    (List.mem_append.mp hd).elim (hbuffer d) (hr.digits d)
  have hbit : r.2.1 / 2 ^ (r.2.2 - 1) % 2 = 1 ↔ 2 ^ r.2.2 ≤ 2 * r.2.1 := by
    cases hp : r.2.2 with
    | zero =>
      rw [hp, pow_zero] at hrest
      rw [Nat.lt_one_iff.mp hrest]
      simp
    | succ q =>
      rw [hp, pow_succ] at hrest
      have hdiv : r.2.1 / 2 ^ q < 2 := Nat.div_lt_of_lt_mul hrest
      rw [Nat.add_sub_cancel, Nat.mod_eq_of_lt hdiv, pow_succ, Nat.mul_comm,
        Nat.mul_le_mul_left_iff (by norm_num), ← Nat.one_le_div_iff (by positivity)]
      omega
  have hvalue : (decVal buffer + fractionals / 2 ^ point : ℚ) * 10 ^ r.1.length
      = (decVal (buffer ++ r.1) : ℕ) + r.2.1 / (2 ^ r.2.2 : ℕ) := by
    have hloop : (fractionals * 10 ^ r.1.length : ℚ)
        = decVal r.1 * 2 ^ point + r.2.1 * 2 ^ r.1.length := by exact_mod_cast hr.value_eq
    have hpow : (2 : ℚ) ^ point = 2 ^ r.2.2 * 2 ^ r.1.length := by rw [← pow_add, hpoint]
    rw [decVal_append, add_mul, div_mul_eq_mul_div, hloop, hpow]
    push_cast
    field_simp
    ring
  have hround : round ((decVal buffer + fractionals / 2 ^ point : ℚ) * 10 ^ r.1.length)
      = ((decVal (buffer ++ r.1) + if 2 ^ r.2.2 ≤ 2 * r.2.1 then 1 else 0 : ℕ) : ℤ) := by
    rw [hvalue, round_natCast_add, round_div _ (by positivity), Nat.div_eq_of_lt hrest,
      Nat.mod_eq_of_lt hrest, Nat.zero_add]
    push_cast
    rfl
  have hempty : buffer ++ r.1 = [] → (buffer.length : ℤ) = 0 := fun h => by
    rw [(List.append_eq_nil_iff.mp h).1]
    rfl
  have hlen : ((buffer ++ r.1).length : ℤ) ≤ buffer.length + count := by
    have := hr.length_le
    rw [List.length_append]
    omega
  have hscale : (buffer.length : ℤ) - (buffer ++ r.1).length = -(r.1.length : ℤ) := by
    rw [List.length_append]
    push_cast
    ring
  by_cases hup : r.2.1 / 2 ^ (r.2.2 - 1) % 2 = 1
  · rw [if_pos hup]
    rw [if_pos (hbit.mp hup)] at hround
    obtain ⟨hdigits, hlength, hsum⟩ := spec_roundUp hall hempty
    refine ⟨hdigits, by omega, ?_⟩
    rw [hsum, hscale]
    refine (round_mul_pow_div hr.length_le hround (hr.stop.imp id fun h0 => ?_)).symm
    rw [h0, Nat.zero_div] at hup
    exact absurd hup (by norm_num)
  · rw [if_neg hup]
    rw [if_neg fun h => hup (hbit.mpr h), Nat.add_zero] at hround
    refine ⟨hall, hlen, ?_⟩
    dsimp only
    rw [hscale]
    refine (round_mul_pow_div hr.length_le hround (hr.stop.imp id fun h0 => ?_)).symm
    rw [hvalue, h0, Nat.cast_zero, zero_div, add_zero]

/-- `FillFractionals` rounds a fraction below one, whichever width it computes in. -/
theorem spec_fillFractionals {buffer : Bytes} {count fractionals shift : ℕ}
    (hbuffer : ∀ d ∈ buffer, isDigit d = true) (hcount : count ≤ 20) (hf : fractionals < 2 ^ 53)
    (hlt : fractionals < 2 ^ shift) (hshift : shift ≤ 128) :
    FixedDigits count (decVal buffer + fractionals / 2 ^ shift)
      (fillFractionals fractionals (-(shift : ℤ)) count buffer).1
      (fillFractionals fractionals (-(shift : ℤ)) count buffer).2 := by
  rw [fillFractionals, neg_neg]
  split
  · rename_i h64
    have hroom : Room 64 fractionals shift := by
      by_cases hsmall : shift + 3 ≤ 64
      · exact Or.inl hsmall
      · refine Or.inr ?_
        have h5 : 5 ^ (shift + 3 - 64) ≤ 5 ^ 3 := Nat.pow_le_pow_right (by norm_num) (by omega)
        calc fractionals * 5 ^ (shift + 3 - 64) ≤ 2 ^ 53 * 5 ^ 3 := Nat.mul_le_mul hf.le h5
          _ < 2 ^ (64 - 3) := by norm_num
    rw [Int.toNat_natCast, fraction64Loop_eq count hlt hroom]
    exact fixedDigits_of_fraction hbuffer (spec_fractionLoop count hlt)
  · rename_i h64
    obtain ⟨s, rfl⟩ : ∃ s, shift = s + 64 := ⟨shift - 64, by omega⟩
    have hamount : ((s + 64 : ℕ) : ℤ) - 64 = s := by omega
    obtain ⟨hfits, hval⟩ := UInt128.spec_shift (hf.trans (by norm_num)) (show 0 < s by omega)
      (show s ≤ 64 by omega)
    have hpow : 2 ^ 128 = 2 ^ (s + 64) * 2 ^ (64 - s) := by
      rw [← pow_add]
      congr 1
      omega
    have hlt' : fractionals * 2 ^ (64 - s) < 2 ^ 128 := by
      rw [hpow]
      exact Nat.mul_lt_mul_of_pos_right hlt (by positivity)
    have hroom : Room 128 (fractionals * 2 ^ (64 - s)) 128 := by
      have h2 : 2 ^ (64 - s) ≤ 2 ^ 63 := Nat.pow_le_pow_right (by norm_num) (by omega)
      have h116 : fractionals * 2 ^ (64 - s) ≤ 2 ^ 53 * 2 ^ 63 := Nat.mul_le_mul hf.le h2
      rw [Room]
      omega
    rw [hamount]
    rw [← hval] at hlt' hroom
    obtain ⟨h1, h2, h3, h4⟩ := fraction128Loop_eq count hfits hlt' hroom (by omega)
    have hspec := spec_fractionLoop count hlt'
    have hpoint := hspec.point_eq
    have hlen := hspec.length_le
    have hresult := fixedDigits_of_fraction hbuffer hspec
    have hfraction : ((UInt128.mk fractionals 0).shift s).value / (2 : ℚ) ^ 128
        = fractionals / 2 ^ (s + 64) := by
      have hpow' : (2 : ℚ) ^ 128 = 2 ^ (s + 64) * 2 ^ (64 - s) := by exact_mod_cast hpow
      rw [hval, hpow']
      push_cast
      field_simp
    rw [hfraction, ← h2, ← h3, ← h4, ← UInt128.bitAt_eq h1 (by rw [h4]; omega)] at hresult
    exact hresult

/-! ## Integers -/

/-- The last digits of a number, as many as are asked for. -/
theorem decVal_fillDigits32FixedLength (number n : ℕ) :
    (fillDigits32FixedLength number n).length = n
      ∧ (∀ d ∈ fillDigits32FixedLength number n, isDigit d = true)
      ∧ decVal (fillDigits32FixedLength number n) = number % 10 ^ n := by
  induction n generalizing number with
  | zero => exact ⟨rfl, fun d hd => absurd hd List.not_mem_nil, by rw [pow_zero, Nat.mod_one]; rfl⟩
  | succ n ih =>
    obtain ⟨hlen, hdigits, hvalue⟩ := ih (number / 10)
    have hlast : number % 10 < 10 := Nat.mod_lt _ (by norm_num)
    rw [fillDigits32FixedLength]
    refine ⟨by rw [List.length_append, hlen]; rfl, fun d hd => ?_, ?_⟩
    · rcases List.mem_append.mp hd with hd | hd
      · exact hdigits d hd
      · rw [List.mem_singleton.mp hd]
        exact isDigit_digitChar hlast
    · rw [decVal_append_singleton, hvalue, digitVal_digitChar hlast, pow_succ', Nat.mod_mul,
        Nat.add_comm, Nat.mul_comm]

/-- The digits come out from the last on. -/
theorem spec_reverseDigits (number : ℕ) :
    (∀ d ∈ reverseDigits number, isDigit d = true) ∧ revVal (reverseDigits number) = number := by
  fun_induction reverseDigits number with
  | case1 number hne ih =>
    have hlast : number % 10 < 10 := Nat.mod_lt _ (by norm_num)
    refine ⟨fun d hd => ?_, ?_⟩
    · rcases List.mem_cons.mp hd with rfl | hd
      · exact isDigit_digitChar hlast
      · exact ih.1 d hd
    · rw [revVal_cons, ih.2, digitVal_digitChar hlast, Nat.mod_add_div]
  | case2 number h0 => exact ⟨fun d hd => absurd hd List.not_mem_nil, (not_not.mp h0).symm⟩

/-- `FillDigits32` writes a number. -/
theorem spec_fillDigits32 (number : ℕ) :
    (∀ d ∈ fillDigits32 number, isDigit d = true) ∧ decVal (fillDigits32 number) = number := by
  obtain ⟨hdigits, hvalue⟩ := spec_reverseDigits number
  refine ⟨fun d hd => hdigits d (List.mem_reverse.mp hd), ?_⟩
  rw [decVal_eq_revVal, fillDigits32, List.reverse_reverse, hvalue]

/-- Digits in front of others. -/
theorem decVal_append_fixed {s : Bytes} (number n : ℕ) (hs : ∀ d ∈ s, isDigit d = true) :
    (∀ d ∈ s ++ fillDigits32FixedLength number n, isDigit d = true)
      ∧ decVal (s ++ fillDigits32FixedLength number n) = decVal s * 10 ^ n + number % 10 ^ n := by
  obtain ⟨hlen, hdigits, hvalue⟩ := decVal_fillDigits32FixedLength number n
  refine ⟨fun d hd => (List.mem_append.mp hd).elim (hs d) (hdigits d), ?_⟩
  rw [decVal_append, hlen, hvalue]

/-- In parts of three, seven and seven digits. -/
theorem spec_fillDigits64FixedLength {number : ℕ} (h : number < 10 ^ 17) :
    (fillDigits64FixedLength number).length = 17
      ∧ (∀ d ∈ fillDigits64FixedLength number, isDigit d = true)
      ∧ decVal (fillDigits64FixedLength number) = number := by
  rw [fillDigits64FixedLength]
  obtain ⟨-, hdigits0, hvalue0⟩ :=
    decVal_fillDigits32FixedLength (number / 10 ^ 7 / 10 ^ 7 % 2 ^ 32) 3
  obtain ⟨hdigits1, hvalue1⟩ := decVal_append_fixed (number / 10 ^ 7 % 10 ^ 7) 7 hdigits0
  obtain ⟨hdigits2, hvalue2⟩ := decVal_append_fixed (number % 10 ^ 7) 7 hdigits1
  refine ⟨rfl, hdigits2, ?_⟩
  rw [hvalue2, hvalue1, hvalue0]
  omega

/-- `FillDigits64` writes a number without zeros in front of it. -/
theorem spec_fillDigits64 {number : ℕ} (h : number < 2 ^ 64) :
    (∀ d ∈ fillDigits64 number, isDigit d = true) ∧ decVal (fillDigits64 number) = number := by
  rw [fillDigits64]
  split
  · obtain ⟨hdigits0, hvalue0⟩ := spec_fillDigits32 (number / 10 ^ 7 / 10 ^ 7 % 2 ^ 32)
    obtain ⟨hdigits1, hvalue1⟩ := decVal_append_fixed (number / 10 ^ 7 % 10 ^ 7) 7 hdigits0
    obtain ⟨hdigits2, hvalue2⟩ := decVal_append_fixed (number % 10 ^ 7) 7 hdigits1
    refine ⟨hdigits2, ?_⟩
    rw [hvalue2, hvalue1, hvalue0]
    omega
  split
  · obtain ⟨hdigits1, hvalue1⟩ := spec_fillDigits32 (number / 10 ^ 7 % 10 ^ 7)
    obtain ⟨hdigits2, hvalue2⟩ := decVal_append_fixed (number % 10 ^ 7) 7 hdigits1
    refine ⟨hdigits2, ?_⟩
    rw [hvalue2, hvalue1]
    omega
  · obtain ⟨hdigits2, hvalue2⟩ := spec_fillDigits32 (number % 10 ^ 7)
    refine ⟨hdigits2, ?_⟩
    rw [hvalue2]
    omega

theorem kFive17_eq : kFive17 = 762939453125 := by rfl

/-- The quotient and the remainder by `10 ^ 17`, one behind the other. -/
theorem spec_fillDigits73 {f e : ℕ} (hf : f < 2 ^ 53) (hlow : 12 ≤ e) (hhigh : e ≤ 20) :
    (∀ d ∈ fillDigits73 f e, isDigit d = true) ∧ decVal (fillDigits73 f e) = f * 2 ^ e := by
  have hjoin : ∀ q r, r < 10 ^ 17 →
      (∀ d ∈ fillDigits32 q ++ fillDigits64FixedLength r, isDigit d = true)
        ∧ decVal (fillDigits32 q ++ fillDigits64FixedLength r) = q * 10 ^ 17 + r := by
    intro q r hr
    obtain ⟨hdigits, hvalue⟩ := spec_fillDigits32 q
    obtain ⟨hlen, hdigits', hvalue'⟩ := spec_fillDigits64FixedLength hr
    refine ⟨fun d hd => (List.mem_append.mp hd).elim (hdigits d) (hdigits' d), ?_⟩
    rw [decVal_append, hlen, hvalue, hvalue']
  rw [fillDigits73, kFive17_eq]
  split
  · obtain ⟨hdigits, hvalue⟩ := hjoin (f * 2 ^ (e - 17) / 762939453125 % 2 ^ 32)
      (f * 2 ^ (e - 17) % 762939453125 * 2 ^ 17) (by omega)
    refine ⟨hdigits, hvalue.trans ?_⟩
    interval_cases e <;> omega
  · have hlt : f % (762939453125 * 2 ^ (17 - e)) * 2 ^ e < 10 ^ 17 := by
      interval_cases e <;> omega
    obtain ⟨hdigits, hvalue⟩ := hjoin (f / (762939453125 * 2 ^ (17 - e)) % 2 ^ 32) _ hlt
    refine ⟨hdigits, hvalue.trans ?_⟩
    interval_cases e <;> omega

/-! ## The number -/

/-- An integer is not rounded. -/
theorem fixedDigits_of_integer {buffer : Bytes} (hbuffer : ∀ d ∈ buffer, isDigit d = true) (n : ℕ) :
    FixedDigits n (decVal buffer) buffer buffer.length := by
  refine ⟨hbuffer, by omega, ?_⟩
  have hint : (decVal buffer : ℚ) * 10 ^ n = ((decVal buffer * 10 ^ n : ℕ) : ℚ) := by push_cast; rfl
  rw [hint, round_natCast, sub_self, zpow_zero, mul_one]
  push_cast
  field_simp

/-- Every branch of `FastFixedDtoa` rounds. -/
theorem spec_fixedDigits {f n : ℕ} {e : ℤ} (hf : f < 2 ^ 53) (he : e ≤ 20) (hn : n ≤ 20) :
    FixedDigits n (f * 2 ^ e) (fixedDigits f e n).1 (fixedDigits f e n).2 := by
  rw [fixedDigits]
  split
  · rename_i hbig
    obtain ⟨k, rfl⟩ := Int.eq_ofNat_of_zero_le (show 0 ≤ e by omega)
    obtain ⟨hdigits, hvalue⟩ := @spec_fillDigits73 f k hf (by omega) (by omega)
    have hresult := fixedDigits_of_integer hdigits n
    rw [hvalue] at hresult
    push_cast at hresult
    rwa [zpow_natCast, Int.toNat_natCast]
  split
  · rename_i hbig hpos
    obtain ⟨k, rfl⟩ := Int.eq_ofNat_of_zero_le hpos
    have hk : f * 2 ^ k < 2 ^ 64 := by
      calc f * 2 ^ k < 2 ^ 53 * 2 ^ k := Nat.mul_lt_mul_of_pos_right hf (by positivity)
        _ ≤ 2 ^ 53 * 2 ^ 11 :=
            Nat.mul_le_mul_left _ (Nat.pow_le_pow_right (by norm_num) (by omega))
        _ = 2 ^ 64 := by norm_num
    obtain ⟨hdigits, hvalue⟩ := spec_fillDigits64 hk
    have hresult := fixedDigits_of_integer hdigits n
    rw [hvalue] at hresult
    push_cast at hresult
    rwa [zpow_natCast, Int.toNat_natCast]
  obtain ⟨s, rfl⟩ : ∃ s : ℕ, e = -(s : ℤ) := ⟨(-e).toNat, by omega⟩
  have hscale : (f : ℚ) * 2 ^ (-(s : ℤ)) = f / 2 ^ s := by
    rw [zpow_neg, zpow_natCast, div_eq_mul_inv]
  rw [neg_neg, Int.toNat_natCast, hscale]
  split
  · rename_i h53
    have hbuffer : (∀ d ∈ if f / 2 ^ s > 0xFFFFFFFF then fillDigits64 (f / 2 ^ s)
          else fillDigits32 (f / 2 ^ s), isDigit d = true)
        ∧ decVal (if f / 2 ^ s > 0xFFFFFFFF then fillDigits64 (f / 2 ^ s)
          else fillDigits32 (f / 2 ^ s)) = f / 2 ^ s := by
      split
      · exact spec_fillDigits64 ((Nat.div_le_self _ _).trans_lt (hf.trans (by norm_num)))
      · exact spec_fillDigits32 _
    have hmod : f - f / 2 ^ s * 2 ^ s = f % 2 ^ s := by
      have := Nat.div_add_mod f (2 ^ s)
      rw [Nat.mul_comm (f / 2 ^ s)]
      omega
    have hresult := spec_fillFractionals hbuffer.1 hn
      ((Nat.mod_le f (2 ^ s)).trans_lt hf) (Nat.mod_lt f (show 0 < 2 ^ s by positivity))
      (show s ≤ 128 by omega)
    have hsplit : (f : ℚ) / 2 ^ s = (f / 2 ^ s : ℕ) + (f % 2 ^ s : ℕ) / 2 ^ s := by
      rw [div_eq_iff (by positivity), add_mul, div_mul_cancel₀ _ (by positivity), mul_comm]
      exact_mod_cast (Nat.div_add_mod f (2 ^ s)).symm
    rw [hbuffer.2, ← hsplit] at hresult
    dsimp only
    rwa [hmod]
  split
  · -- too small for any digit to be reached
    rename_i h128
    refine ⟨fun d hd => absurd hd List.not_mem_nil, by simp, ?_⟩
    have hpow : (2 : ℚ) ^ 129 ≤ 2 ^ s := pow_le_pow_right₀ (by norm_num) (by omega)
    have hten : (10 : ℚ) ^ n ≤ 10 ^ 20 := pow_le_pow_right₀ (by norm_num) hn
    have hf' : (f : ℚ) < 2 ^ 53 := by exact_mod_cast hf
    have hsmall : (f : ℚ) / 2 ^ s * 10 ^ n < 1 / 2 := by
      rw [div_mul_eq_mul_div, div_lt_iff₀ (by positivity)]
      calc (f : ℚ) * 10 ^ n ≤ 2 ^ 53 * 10 ^ 20 := by gcongr
        _ < 1 / 2 * 2 ^ 129 := by norm_num
        _ ≤ 1 / 2 * 2 ^ s := by gcongr
    have hround : round ((f : ℚ) / 2 ^ s * 10 ^ n) = 0 :=
      round_eq_zero_iff.mpr ⟨by have : (0 : ℚ) ≤ f / 2 ^ s * 10 ^ n := by positivity
                                linarith, hsmall⟩
    rw [hround, decVal_nil]
    simp
  · rename_i h53 h128
    have hlt : f < 2 ^ s := hf.trans_le (Nat.pow_le_pow_right (by norm_num) (by omega))
    have hresult := @spec_fillFractionals [] n f s (fun d hd => absurd hd List.not_mem_nil) hn hf
      hlt
      (by omega)
    rwa [decVal_nil, Nat.cast_zero, zero_add] at hresult

theorem getLast?_stripZeros (s : Bytes) : (stripZeros s).getLast? ≠ some 48 := by
  intro h
  have hne : stripZeros s ≠ [] := fun hnil => by
    rw [hnil] at h
    exact absurd h (by simp)
  rw [List.getLast?_eq_some_getLast hne] at h
  exact List.rdropWhile_last_not (· == 48) s hne (beq_iff_eq.mpr (Option.some.inj h))

/-- Taking zeros away at both ends changes neither the number nor what is behind the point. -/
theorem spec_trimZeros {n : ℕ} {v : ℚ} {buffer : Bytes} {decimalPoint : ℤ}
    (h : FixedDigits n v buffer decimalPoint) :
    FixedDigits n v (trimZeros buffer decimalPoint).1 (trimZeros buffer decimalPoint).2
      ∧ (trimZeros buffer decimalPoint).1.head? ≠ some 48
      ∧ (trimZeros buffer decimalPoint).1.getLast? ≠ some 48 := by
  obtain ⟨m, hm⟩ := stripZeros_append buffer
  have hlast := getLast?_stripZeros buffer
  have hsplit := List.takeWhile_append_dropWhile (p := (· == 48)) (l := stripZeros buffer)
  have hzeros : (stripZeros buffer).takeWhile (· == 48)
      = List.replicate ((stripZeros buffer).takeWhile (· == 48)).length 48 :=
    List.eq_replicate_of_mem fun c hc => by simpa using List.mem_takeWhile_imp hc
  have hhead := List.head?_dropWhile_not (· == 48) (stripZeros buffer)
  rw [trimZeros, ← stripZeros]
  generalize stripZeros buffer = stripped at *
  generalize stripped.takeWhile (· == 48) = leading at *
  generalize stripped.dropWhile (· == 48) = trimmed at *
  generalize leading.length = k at hzeros
  subst hzeros hsplit hm
  have hvalue : decVal (List.replicate k 48 ++ trimmed ++ List.replicate m 48)
      = decVal trimmed * 10 ^ m := by
    rw [decVal_append, decVal_append, decVal_zeros, decVal_zeros, List.length_replicate,
      Nat.zero_mul, Nat.zero_add, Nat.add_zero]
  have hlen := h.length_le
  have hnum := h.value_eq
  rw [hvalue] at hnum
  simp only [List.length_append, List.length_replicate] at hlen hnum ⊢
  rw [Nat.add_sub_cancel]
  refine ⟨⟨fun d hd => h.digits d (by simp [hd]), by omega, ?_⟩, ?_, ?_⟩
  · rw [← hnum, show decimalPoint - (k : ℤ) - trimmed.length
      = m + (decimalPoint - ((k + trimmed.length + m : ℕ) : ℤ)) by push_cast; ring,
      zpow_add₀ (by norm_num), zpow_natCast]
    push_cast
    ring
  · intro h48
    rw [h48] at hhead
    exact absurd hhead (by simp)
  · by_cases hnil : trimmed = []
    · rw [hnil]
      simp
    · rwa [List.getLast?_append_of_ne_nil _ hnil] at hlast

/-- What `FastFixedDtoa` returns is the number, rounded behind the point, without zeros at either
end. -/
theorem spec_fastFixedDtoa {v : Double} {n : ℕ} {r : Bytes × ℤ}
    (h : fastFixedDtoa v n = some r) :
    FixedText n v.magnitude r.1 r.2 ∧ r.1.getLast? ≠ some 48 := by
  rw [fastFixedDtoa] at h
  split at h
  · exact absurd h (by simp)
  · rename_i hbounds
    rw [not_or] at hbounds
    obtain ⟨hfixed, hhead, hlast⟩ := spec_trimZeros (spec_fixedDigits v.significand_lt
      (Int.not_lt.mp hbounds.1) (Nat.not_lt.mp hbounds.2))
    obtain rfl := (Option.some.inj h).symm
    refine ⟨⟨?_, hhead, fun hnil => if_pos hnil⟩, hlast⟩
    dsimp only
    split
    · rename_i hnil
      have hzero := hfixed.value_eq
      refine ⟨hfixed.digits, by rw [hnil]; simp, ?_⟩
      rw [hnil, decVal_nil, Nat.cast_zero, zero_mul] at hzero ⊢
      exact hzero
    · exact hfixed

end S4LibLite

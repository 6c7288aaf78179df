import S4LibLite.Types.StringToDoubleTheorems

/-!
# Doubles as text and back (`s4convertors.h`)

A double is off from the number it was read from by less than a fifteenth digit shows, so that
printing it yields the number again, and reading that the double. What `DoubleConvertor` prints with
an exponent it does not read.

* `printed`, the number that is printed, `written_convertValue`, its text;
* `convertText_convertValue`, a double printed and read back;
* `convertValue_convertText`, a number in digits read and printed.
-/

namespace S4LibLite

open Rounding

/-! ## How far the nearest double is -/

section Distance

variable {x y : ℚ}

theorem doubles_at_the_ends : (10 ^ 15 : ℚ) ≤ doubleAt (kInfinity - 1)
    ∧ doubleAt (2 ^ 52) < 1 / 10 ^ 15 := by decide +kernel

/-- A number of the usual size is off by half a unit in the last of fifty-three bits at most. -/
theorem abs_sub_nearest_le {k : ℕ} (h : RoundsTo doubleAt kInfinity x k) (hlow : 1 / 10 ^ 15 ≤ x)
    (hhigh : x < 10 ^ 15) : k < kInfinity ∧ |x - doubleAt k| ≤ doubleAt k / 2 ^ 53 := by
  obtain ⟨hlargest, hsmallest⟩ := doubles_at_the_ends
  have hlt : k < kInfinity := by
    refine lt_of_le_of_ne h.le_top fun htop => ?_
    obtain ⟨i, rfl⟩ : ∃ i, k = i + 1 := ⟨k - 1, by
      rw [Double.kInfinity_eq] at htop
      omega⟩
    rw [← htop, Nat.add_sub_cancel] at hlargest
    exact absurd (hlargest.trans ((lt_boundary strictMono_doubleAt i).le.trans
      h.notBelow.boundary_le)) (not_le_of_gt hhigh)
  have hnormal : 2 ^ 52 ≤ k := by
    by_contra hsmall
    have hle := strictMono_doubleAt.monotone (Nat.succ_le_of_lt (Nat.lt_of_not_le hsmall))
    have hboundary := (h.notAbove hlt).le_boundary.trans (boundary_lt strictMono_doubleAt k).le
    exact absurd (hlow.trans (hboundary.trans hle)) (not_le_of_gt hsmallest)
  obtain ⟨j, rfl⟩ : ∃ j, k = j + 1 := ⟨k - 1, by omega⟩
  have hunit : (0 : ℚ) < 2 ^ expAt (j + 1) := zpow_pos (by norm_num) _
  have hoff := h.abs_sub_le hlt (d := 2 ^ expAt (j + 1)) (by
    rw [doubleAt_succ, add_sub_cancel_left]
    exact zpow_le_zpow_right₀ (by norm_num) (expAt_succ j).1) (by
    rw [doubleAt_succ (j + 1), add_sub_cancel_left])
  have hsig : 2 ^ 52 ≤ sigAt (j + 1) := by
    rw [sigAt]
    omega
  have hsig' : (2 ^ 52 : ℚ) ≤ sigAt (j + 1) := by exact_mod_cast hsig
  refine ⟨hlt, hoff.trans ?_⟩
  rw [doubleAt, le_div_iff₀ (by norm_num)]
  have := mul_le_mul_of_nonneg_right hsig' hunit.le
  linarith

theorem round_eq_of_close {z : ℚ} {M : ℕ} (h : |z - M| < 1 / 2) : round z = M := by
  obtain ⟨hlow, hhigh⟩ := abs_lt.mp h
  rw [round_eq, Int.floor_eq_iff]
  push_cast
  constructor <;> linarith

/-- Fifteen digits of a number that is so close are those of `x`. -/
theorem roundDigits_of_close {N f : ℕ} (hN : N < 10 ^ 15) (hy : 0 < y)
    (hclose : |(N : ℚ) / 10 ^ f - y| ≤ y / 2 ^ 53) : roundDigits 10 15 y = N / 10 ^ f := by
  obtain ⟨e, he⟩ : ∃ e, e = Int.log 10 y := ⟨_, rfl⟩
  have hlow := Int.zpow_log_le_self (b := 10) (by norm_num) hy
  have hhigh := Int.lt_zpow_succ_log_self (b := 10) (by norm_num) y
  rw [← he, Nat.cast_ofNat] at hlow hhigh
  have hten : (0 : ℚ) < 10 ^ f := by positivity
  have hN' : (N : ℚ) ≤ 10 ^ 15 - 1 := by
    rw [le_sub_iff_add_le]
    exact_mod_cast hN
  -- the fifteenth digit of `y` is at or behind the last one of `x`
  have hplace : e + f ≤ 14 := by
    have hless : y < 10 ^ 15 / 10 ^ f := by
      have hdiv : (N : ℚ) / 10 ^ f ≤ (10 ^ 15 - 1) / 10 ^ f :=
        div_le_div_of_nonneg_right hN' hten.le
      have hsplit : ((10 : ℚ) ^ 15 - 1) / 10 ^ f = 10 ^ 15 / 10 ^ f - 1 / 10 ^ f := sub_div _ _ _
      have hscale : (10 : ℚ) ^ 15 / 10 ^ f = 10 ^ 15 * (1 / 10 ^ f) := by ring
      have hpos : (0 : ℚ) < 1 / 10 ^ f := by positivity
      have := (abs_le.mp hclose).1
      rw [hscale] at hsplit ⊢
      generalize (1 : ℚ) / 10 ^ f = u at *
      norm_num at *
      linarith
    have hpow : (10 : ℚ) ^ 15 / 10 ^ f = 10 ^ (15 - f : ℤ) := by
      rw [zpow_sub₀ (by norm_num), zpow_natCast]
      norm_cast
    rw [hpow] at hless
    have := (zpow_lt_zpow_iff_right₀ (show (1 : ℚ) < 10 by norm_num)).mp (hlow.trans_lt hless)
    omega
  obtain ⟨n, hn⟩ : ∃ n : ℕ, e + f + n = 14 := ⟨(14 - e - f).toNat, by omega⟩
  have hunit : (0 : ℚ) < 10 ^ (e - 14) := zpow_pos (by norm_num) _
  have hx : (N : ℚ) / 10 ^ f = (N * 10 ^ n : ℕ) * 10 ^ (e - 14) := by
    rw [show e - 14 = -(n : ℤ) - f by omega, zpow_sub₀ (by norm_num), zpow_neg, zpow_natCast,
      zpow_natCast]
    push_cast
    field_simp
  have hsmall : y < 10 ^ 15 * 10 ^ (e - 14) := by
    rw [← zpow_natCast, ← zpow_add₀ (by norm_num)]
    exact hhigh.trans_eq (by congr 1; push_cast; ring)
  have hround : round (y / 10 ^ (e - 14)) = (N * 10 ^ n : ℕ) := by
    refine round_eq_of_close ?_
    rw [hx, abs_sub_comm] at hclose
    rw [div_sub' hunit.ne', mul_comm ((10 : ℚ) ^ (e - 14)), abs_div, abs_of_pos hunit,
      div_lt_iff₀ hunit]
    refine hclose.trans_lt ?_
    rw [div_lt_iff₀ (by norm_num)]
    norm_num at hsmall ⊢
    linarith
  rw [roundDigits, ← he, Nat.cast_ofNat, show e + 1 - ((15 : ℕ) : ℤ) = e - 14 by push_cast; ring,
    hround, hx, Int.cast_natCast]

/-- And so are fifteen places behind the point, where `x` has no more. -/
theorem round_of_close {N f : ℕ} (hf : f ≤ 15) (hy : 0 < y) (hy1 : y < 1)
    (hclose : |(N : ℚ) / 10 ^ f - y| ≤ y / 2 ^ 53) :
    (round (y * 10 ^ 15) : ℚ) / 10 ^ 15 = N / 10 ^ f := by
  have hx : (N : ℚ) / 10 ^ f = (N * 10 ^ (15 - f) : ℕ) / 10 ^ 15 := by
    rw [div_eq_div_iff (by positivity) (by positivity)]
    push_cast
    rw [mul_assoc, ← pow_add, Nat.sub_add_cancel hf]
  have hround : round (y * 10 ^ 15) = (N * 10 ^ (15 - f) : ℕ) := by
    refine round_eq_of_close ?_
    rw [hx] at hclose
    have hscaled : y * 10 ^ 15 - (N * 10 ^ (15 - f) : ℕ)
        = (y - (N * 10 ^ (15 - f) : ℕ) / 10 ^ 15) * 10 ^ 15 := by
      rw [sub_mul, div_mul_cancel₀ _ (by norm_num)]
    rw [hscaled, abs_mul, abs_sub_comm, abs_of_pos (show (0 : ℚ) < 10 ^ 15 by norm_num)]
    refine (mul_le_mul_of_nonneg_right hclose (by norm_num)).trans_lt ?_
    norm_num at hy1 ⊢
    linarith
  rw [hround, hx, Int.cast_natCast]

end Distance

/-! ## What is printed -/

namespace DoubleConvertor

open StringToDoubleConverter DoubleToStringConverter

section Print

variable {v : Double} {padding : ℤ}

/-- The number that is printed: fifteen digits, or close to zero fifteen places behind the point. -/
def printed (v : Double) : ℚ :=
  if isFar v then roundDigits 10 15 v.magnitude else round (v.magnitude * 10 ^ 15) / 10 ^ 15

theorem written_numText {negative : Bool} {whole fraction : Bytes} (hne : whole ≠ [])
    (hwhole : ∀ c ∈ whole, isDigit c = true) (hfraction : ∀ c ∈ fraction, isDigit c = true) :
    Written (numText negative whole fraction []) negative whole fraction := by
  refine ⟨hwhole, hfraction, List.append_ne_nil_of_left_ne_nil hne _, pointed fraction, ?_, ?_⟩
  · rw [pointed]
    split
    · rename_i hnil
      exact Or.inl ⟨rfl, hnil⟩
    · exact Or.inr rfl
  · rw [numText, List.append_nil, List.append_assoc]

/-- Digits are padded by zeros. -/
theorem padded_numText {negative : Bool} {whole fraction : Bytes} (hne : whole ≠ [])
    (hwhole : ∀ c ∈ whole, isDigit c = true) (hfraction : ∀ c ∈ fraction, isDigit c = true)
    (padding : ℤ) {text : Bytes} (htext : text = numText negative whole fraction []) :
    ∃ behind, Written (if padding > 0 then padded padding text else text) negative whole behind
      ∧ partsValue whole behind 0 = partsValue whole fraction 0 := by
  rw [htext]
  split
  · rename_i hpadding
    obtain ⟨m, hm⟩ := padded_fixed negative fraction hwhole hpadding
    refine ⟨fraction ++ List.replicate m 48, ?_, partsValue_append_zeros _ _ _ _⟩
    rw [hm]
    exact written_numText hne hwhole (List.forall_mem_append.mpr ⟨hfraction, isDigit_zeros m⟩)
  · exact ⟨fraction, written_numText hne hwhole hfraction, rfl⟩

/-- Up to a padding of fifteen there is room for the text with its zeros. -/
theorem convertValue_of_far (hfinite : v.isSpecial = false) (hisFar : isFar v = true)
    (hne : fastDtoa v ≠ []) (hpadding : padding ≤ 15) :
    ∃ text, convertValue v padding = some text ∧ text.length ≤ bufferSize
      ∧ text = if padding > 0 then padded padding (fastDtoa v) else fastDtoa v := by
  obtain ⟨htext, hsome⟩ := @convertValue_far v padding hisFar hne
  rw [isFar, hfinite, if_neg Bool.false_ne_true, Bool.or_eq_true, decide_eq_true_eq] at hisFar
  have hlen := length_padded_fastDtoa hfinite hisFar hpadding
  obtain ⟨text, hconvert⟩ := Option.isSome_iff_exists.mp (hsome hlen)
  exact ⟨text, hconvert, htext text hconvert ▸ hlen, htext text hconvert⟩

theorem written_far (hfinite : v.isSpecial = false) (hisFar : isFar v = true)
    (hsmall : roundDigits 10 15 v.magnitude < 10 ^ 15) (hpadding : padding ≤ 15) :
    ∃ text whole fraction, convertValue v padding = some text ∧ text.length ≤ bufferSize
      ∧ whole ≠ [] ∧ Written text v.isNegative whole fraction
      ∧ partsValue whole fraction 0 = roundDigits 10 15 v.magnitude := by
  by_cases hzero : v.isZero = true
  · have htext := fastDtoa_zero hfinite hzero
    obtain ⟨behind, hwritten, hvalue⟩ := padded_numText (List.cons_ne_nil 48 [])
      (List.all_eq_true.mp rfl) (List.all_eq_true.mp rfl) padding htext
    obtain ⟨text, hconvert, hlen, rfl⟩ := convertValue_of_far hfinite hisFar
      (htext ▸ numText_ne_nil (List.cons_ne_nil _ _)) hpadding
    refine ⟨_, [48], behind, hconvert, hlen, List.cons_ne_nil _ _, hwritten, ?_⟩
    have hmagnitude : v.magnitude = 0 := by
      rw [Double.isZero, beq_iff_eq] at hzero
      rw [Double.magnitude, hzero, Nat.cast_zero, zero_mul]
    rw [hvalue, hmagnitude, roundDigits, partsValue, List.append_nil,
      show decVal [48] = 0 from rfl]
    simp
  · have hpos : 0 < v.significand := by
      rw [Double.isZero, beq_iff_eq] at hzero
      omega
    have hfar : nearZero.value < v.magnitude := by
      have hfar := hisFar
      rw [isFar, hfinite, if_neg Bool.false_ne_true, Bool.or_eq_true, decide_eq_true_eq] at hfar
      exact hfar.resolve_left hzero
    obtain ⟨a, hsign, hascii, hdigits⟩ := exists_doubleAscii hfinite hpos hfar
    have hpoint := (hdigits.zpow_point_le (by norm_num)).trans_lt hsmall
    rw [← zpow_natCast, zpow_lt_zpow_iff_right₀ (by norm_num)] at hpoint
    obtain ⟨whole, fraction, hparts, htext⟩ := fastDtoa_fixed (a := a) (by omega)
    rw [← fastDtoa_eq hfinite hascii, hsign] at htext
    obtain ⟨behind, hwritten, hvalue⟩ := padded_numText hparts.ne_nil hparts.isDigit_whole
      hparts.isDigit_fraction padding htext
    obtain ⟨text, hconvert, hlen, rfl⟩ := convertValue_of_far hfinite hisFar
      (htext ▸ numText_ne_nil hparts.ne_nil) hpadding
    refine ⟨_, whole, behind, hconvert, hlen, hparts.ne_nil, hwritten, ?_⟩
    rw [hvalue, hparts.value, DoubleAscii.magnitude, hdigits.length_eq]
    exact hdigits.value_eq

theorem written_near (hfinite : v.isSpecial = false) (hisFar : isFar v = false) (padding : ℤ) :
    ∃ text whole fraction, convertValue v padding = some text ∧ text.length ≤ bufferSize
      ∧ whole ≠ [] ∧ Written text v.isNegative whole fraction
      ∧ partsValue whole fraction 0 = round (v.magnitude * 10 ^ 15) / 10 ^ 15 := by
  rw [isFar, hfinite, if_neg Bool.false_ne_true, Bool.or_eq_false_iff, Double.isZero,
    beq_eq_false_iff_ne, decide_eq_false_iff_not, not_lt] at hisFar
  obtain ⟨fraction, htext, hdigits, -, hvalue, hlen, -⟩ := readDecimal_convertValue_near hfinite
    (Nat.pos_of_ne_zero hisFar.1) hisFar.2 padding
  refine ⟨_, [48], fraction, htext, ?_, List.cons_ne_nil _ _, ?_, hvalue⟩
  · have hsign : (signText v.isNegative).length ≤ 1 := by cases v.isNegative <;> decide
    rw [List.length_append, List.length_append, List.length_singleton, List.length_cons, bufferSize]
    omega
  · exact ⟨List.all_eq_true.mp rfl, hdigits,
      List.append_ne_nil_of_left_ne_nil (List.cons_ne_nil _ _) _, 46 :: fraction, Or.inr rfl,
      List.append_assoc _ _ _⟩

/-- **The text** of a double that is not too large for fifteen digits in front of the point. -/
theorem written_convertValue (hfinite : v.isSpecial = false)
    (hsmall : roundDigits 10 15 v.magnitude < 10 ^ 15) (hpadding : padding ≤ 15) :
    ∃ text whole fraction, convertValue v padding = some text ∧ text.length ≤ bufferSize
      ∧ whole ≠ [] ∧ Written text v.isNegative whole fraction
      ∧ partsValue whole fraction 0 = printed v := by
  rw [printed]
  cases hisFar : isFar v with
  | true => exact written_far hfinite hisFar hsmall hpadding
  | false => exact written_near hfinite hisFar padding

/-- A text with digits in front of the point is read as its number. -/
theorem readDecimal_written {s whole fraction : Bytes} {negative : Bool} (hne : whole ≠ [])
    (h : Written s negative whole fraction) :
    readDecimal s = some ⟨negative, whole, fraction, 0⟩ := by
  obtain ⟨hwhole, hfraction, -, tail, htail, rfl⟩ := h
  have hstop : ∀ c ∈ tail.head?, isDigit c = false := fun c hc => by
    rw [htail.head c hc]
    rfl
  rw [← List.append_assoc, readDecimal_whole hne hwhole hstop]
  rcases htail with ⟨rfl, rfl⟩ | rfl
  · rfl
  · have hall := List.takeWhile_eq_self_iff.mpr hfraction
    have hnone := List.dropWhile_eq_nil_iff.mpr hfraction
    simp only [List.head?_cons, decide_true, if_true, List.tail_cons, hall, hnone]
    rfl

end Print

/-! ## There and back -/

section RoundTrip

variable {s whole fraction : Bytes} {negative : Bool}

/-- The parts of a double with a sign. -/
theorem withSign_parts {d : Double} (h : d.d64 < kInfinity) (negative : Bool) :
    (d.withSign negative).isSpecial = false ∧ (d.withSign negative).isNegative = negative
      ∧ (d.withSign negative).magnitude = doubleAt d.d64 := by
  have hmagnitude := Double.magnitude_eq (v := d) (by
    rw [Double.kInfinity_eq] at h
    omega)
  rw [Double.kInfinity_eq] at h
  cases negative
  · rw [Double.withSign, if_neg Bool.false_ne_true]
    refine ⟨?_, ?_, hmagnitude⟩
    · rw [Double.isSpecial, Double.biasedExponent, beq_eq_false_iff_ne]
      omega
    · rw [Double.isNegative, decide_eq_false_iff_not]
      omega
  · rw [Double.withSign, if_pos rfl]
    refine ⟨?_, ?_, (Double.magnitude_neg d).trans hmagnitude⟩
    · rw [Double.isSpecial_neg, Double.isSpecial, Double.biasedExponent, beq_eq_false_iff_ne]
      omega
    · rw [Double.isNegative, Double.neg, decide_eq_true_eq]
      dsimp only
      omega

/-- What is printed of the double next to a number of so many digits. -/
theorem printed_nearest {N f : ℕ} (hN : N < 10 ^ 15) (hf : f ≤ 15) {d : Double}
    (hd : RoundsTo doubleAt kInfinity (N / 10 ^ f) d.d64) (negative : Bool) :
    d.d64 < kInfinity ∧ roundDigits 10 15 (doubleAt d.d64) = N / 10 ^ f
      ∧ printed (d.withSign negative) = N / 10 ^ f := by
  rcases Nat.eq_zero_or_pos N with rfl | hpos
  · rw [Nat.cast_zero, zero_div] at hd ⊢
    have h0 := RoundsTo.unique strictMono_doubleAt hd roundsTo_zero_zero
    have hlt : d.d64 < kInfinity := by
      rw [h0]
      decide
    obtain ⟨hfinite, -, hmagnitude⟩ := withSign_parts hlt negative
    have hround : roundDigits 10 15 (doubleAt d.d64) = 0 := by
      rw [h0, doubleAt_zero, roundDigits, zero_div, round_zero, Int.cast_zero, zero_mul]
    refine ⟨hlt, hround, ?_⟩
    rw [printed, hmagnitude, hround, h0, doubleAt_zero, zero_mul, round_zero, Int.cast_zero,
      zero_div, ite_self]
  · have hten : (0 : ℚ) < 10 ^ f := by positivity
    have hN0 : (1 : ℚ) ≤ N := by exact_mod_cast hpos
    have hlow : (1 : ℚ) / 10 ^ 15 ≤ N / 10 ^ f :=
      div_le_div₀ (Nat.cast_nonneg _) hN0 hten (pow_le_pow_right₀ (by norm_num) hf)
    have hhigh : (N : ℚ) / 10 ^ f < 10 ^ 15 := by
      refine (div_le_self (Nat.cast_nonneg _) (one_le_pow₀ (by norm_num))).trans_lt ?_
      exact_mod_cast hN
    obtain ⟨hlt, hclose⟩ := abs_sub_nearest_le hd hlow hhigh
    obtain ⟨hfinite, -, hmagnitude⟩ := withSign_parts hlt negative
    have hy : 0 < doubleAt d.d64 := by
      have hx : (0 : ℚ) < N / 10 ^ f := div_pos (lt_of_lt_of_le one_pos hN0) hten
      by_contra hneg
      have := (abs_le.mp hclose).2
      linarith
    have hround := roundDigits_of_close hN hy hclose
    refine ⟨hlt, hround, ?_⟩
    rw [printed, hmagnitude]
    split
    · exact hround
    · rename_i hnear
      refine round_of_close hf hy ?_ hclose
      rw [isFar, hfinite, if_neg Bool.false_ne_true, Bool.or_eq_true, not_or, decide_eq_true_eq,
        not_lt, hmagnitude] at hnear
      exact hnear.2.trans_lt (nearZero_lt_half.trans (by norm_num))

/-- **Text to double to text**: a number in at most fifteen digits, zeros in front apart, with at
most fifteen behind the point, is printed as itself with any padding up to fifteen, and read back as
the same double. -/
theorem convertValue_convertText (h : Written s negative whole fraction)
    (hlen : s.length < 2 ^ 31) (hdigits : decVal (whole ++ fraction) < 10 ^ 15)
    (hfraction : fraction.length ≤ 15) :
    ∃ v, convertText s = some (some v) ∧ ∀ padding ≤ 15,
      ∃ text, convertValue v padding = some text
        ∧ (readDecimal text).map DecimalText.value
          = some ((if negative then -1 else 1) * partsValue whole fraction 0)
        ∧ convertText text = some (some v) := by
  obtain ⟨d, hread, hd⟩ := convertText_of_written h hlen
  have hvalue : partsValue whole fraction 0
      = decVal (whole ++ fraction) / 10 ^ fraction.length := by
    rw [partsValue, zero_sub, zpow_neg, zpow_natCast, div_eq_mul_inv]
  rw [hvalue] at hd
  obtain ⟨hlt, hround, hprinted⟩ := printed_nearest hdigits hfraction hd negative
  obtain ⟨hfinite, hnegative, hmagnitude⟩ := withSign_parts hlt negative
  have hsmall : roundDigits 10 15 (d.withSign negative).magnitude < 10 ^ 15 := by
    rw [hmagnitude, hround]
    refine (div_le_self (Nat.cast_nonneg _) (one_le_pow₀ (by norm_num))).trans_lt ?_
    exact_mod_cast hdigits
  refine ⟨_, hread, fun padding hpadding => ?_⟩
  obtain ⟨text, whole', fraction', hconvert, hfits, hne, hwritten, hparts⟩ :=
    written_convertValue hfinite hsmall hpadding
  rw [hnegative] at hwritten
  rw [hprinted] at hparts
  obtain ⟨d', hread', hd'⟩ := convertText_of_written hwritten (hfits.trans_lt (by decide))
  rw [hparts] at hd'
  refine ⟨text, hconvert, ?_, ?_⟩
  · rw [readDecimal_written hne hwritten, Option.map_some, DecimalText.value, hvalue, hparts]
  · rw [hread', Double.eq_of_d64_eq (RoundsTo.unique strictMono_doubleAt hd' hd)]

theorem convertValue_convertText_cent : ∃ v, convertText (lit "-19.99") = some (some v) ∧
    ∀ padding ≤ 15, ∃ text, convertValue v padding = some text
      ∧ (readDecimal text).map DecimalText.value
        = some (-1 * partsValue (lit "19") (lit "99") 0)
      ∧ convertText text = some (some v) :=
  @convertValue_convertText (lit "-19.99") (lit "19") (lit "99") true
    ⟨List.all_eq_true.mp rfl, List.all_eq_true.mp rfl, List.cons_ne_nil _ _, lit ".99", Or.inr rfl,
      rfl⟩
    (by decide) (by decide +kernel) (by decide)

end RoundTrip

/-! ## An exponent is not read back -/

section Exponent

variable {v w : Double} {padding : ℤ}

theorem mem_padded {c : UInt8} {s : Bytes} (padding : ℤ) (hc : c ∈ s) : c ∈ padded padding s := by
  rw [padded]
  refine List.mem_append_left _ ?_
  split
  · exact List.mem_append_left _ hc
  · exact hc

/-- From sixteen digits in front of the point on there is an exponent. -/
theorem mem_convertValue_of_large (hfinite : v.isSpecial = false)
    (hlarge : 10 ^ 15 ≤ roundDigits 10 15 v.magnitude) (hpadding : padding ≤ 15) :
    ∃ text, convertValue v padding = some text ∧ text.length ≤ bufferSize ∧ 101 ∈ text := by
  have hpos : 0 < v.significand := by
    by_contra hzero
    rw [Double.magnitude, Nat.eq_zero_of_not_pos hzero, Nat.cast_zero, zero_mul, roundDigits,
      zero_div, round_zero, Int.cast_zero, zero_mul] at hlarge
    exact absurd hlarge (by norm_num)
  have hv := v.magnitude_pos_iff.mpr hpos
  have hfar : nearZero.value < v.magnitude := by
    have hlt := roundDigits_lt_two_mul (b := 10) (by norm_num) (show 0 < 15 by norm_num) hv
    have hhalf := nearZero_lt_half
    linarith [hlarge.trans_lt hlt]
  have hisFar : isFar v = true := by
    rw [isFar, hfinite, if_neg Bool.false_ne_true, Bool.or_eq_true, decide_eq_true_eq]
    exact Or.inr hfar
  obtain ⟨a, -, hascii, hdigits⟩ := exists_doubleAscii hfinite hpos hfar
  have hpoint : 15 < a.decimalPoint := by
    by_contra hle
    have hunit : (10 : ℚ) ^ (a.decimalPoint - 15 : ℤ) ≤ 1 :=
      zpow_le_one_of_nonpos₀ (by norm_num) (by omega)
    have hrep : ((decVal a.decimalRep : ℕ) : ℚ) < 10 ^ 15 := by
      have := decVal_lt hdigits.digits
      rw [hdigits.length_eq] at this
      exact_mod_cast this
    have hvalue := hdigits.value_eq
    rw [← hvalue] at hlarge
    exact absurd hlarge (not_le_of_gt ((mul_le_of_le_one_right (Nat.cast_nonneg _) hunit).trans_lt
      hrep))
  obtain ⟨d, hparts⟩ := fastDtoa_exponential hpoint
  have htext := hparts.text
  rw [← fastDtoa_eq hfinite hascii] at htext
  have hmem : 101 ∈ fastDtoa v := by
    rw [htext, numText, powerText]
    exact List.mem_append_right _ (List.mem_append_right _ List.mem_cons_self)
  obtain ⟨text, hconvert, hlen, rfl⟩ :=
    convertValue_of_far hfinite hisFar (List.ne_nil_of_mem hmem) hpadding
  refine ⟨_, hconvert, hlen, ?_⟩
  split
  · exact mem_padded padding hmem
  · exact hmem

/-- **Double to text to double**: what is printed, with a padding of at most fifteen, is read back
exactly where it has no exponent, and then as the double next to the digits that were printed, with
the sign. -/
theorem convertText_convertValue_iff (hfinite : v.isSpecial = false) (hpadding : padding ≤ 15) :
    (convertValue v padding).bind convertText = some (some w) ↔
      roundDigits 10 15 v.magnitude < 10 ^ 15
        ∧ ∃ k, RoundsTo doubleAt kInfinity (printed v) k
          ∧ w = (Double.ofBits k).withSign v.isNegative := by
  rcases lt_or_ge (roundDigits 10 15 v.magnitude) (10 ^ 15) with hsmall | hlarge
  · obtain ⟨text, whole, fraction, hconvert, hfits, -, hwritten, hvalue⟩ :=
      written_convertValue hfinite hsmall hpadding
    obtain ⟨d, hread, hd⟩ := convertText_of_written hwritten (hfits.trans_lt (by decide))
    rw [hvalue] at hd
    have hbits := Double.eq_of_d64_eq (Double.d64_ofBits hd.le_top)
    rw [hconvert, Option.bind_some, hread, Option.some_inj, Option.some_inj]
    constructor
    · intro h
      exact ⟨hsmall, d.d64, hd, by rw [hbits, h]⟩
    · rintro ⟨-, k, hk, rfl⟩
      rw [RoundsTo.unique strictMono_doubleAt hk hd, hbits]
  · obtain ⟨text, hconvert, hfits, hmem⟩ := mem_convertValue_of_large hfinite hlarge hpadding
    refine iff_of_false (fun h => ?_) fun h => absurd h.1 (not_lt_of_ge hlarge)
    rw [hconvert, Option.bind_some, convertText_of_not_written (hfits.trans_lt (by decide))] at h
    · exact absurd h (by simp)
    · rintro ⟨negative, whole, fraction, hwritten⟩
      rcases Written.mem hwritten hmem with h | h | h
      · exact absurd h (by decide)
      · exact absurd h (by decide)
      · exact absurd h (by decide)

/-- The double 0.3, which is not the number 0.3. -/
theorem convertText_convertValue_third :
    (convertValue ⟨0x3FD3333333333333, by decide⟩ 2).bind convertText
        = some (some ⟨0x3FD3333333333333, by decide⟩)
      ↔ roundDigits 10 15 (⟨0x3FD3333333333333, by decide⟩ : Double).magnitude < 10 ^ 15
        ∧ ∃ k, RoundsTo doubleAt kInfinity (printed ⟨0x3FD3333333333333, by decide⟩) k
          ∧ (⟨0x3FD3333333333333, by decide⟩ : Double) = (Double.ofBits k).withSign
            (⟨0x3FD3333333333333, by decide⟩ : Double).isNegative :=
  convertText_convertValue_iff (by decide) (by decide)

end Exponent

end DoubleConvertor

end S4LibLite

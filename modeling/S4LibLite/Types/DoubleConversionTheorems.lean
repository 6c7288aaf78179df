import S4LibLite.Types.BignumDtoaTheorems
import S4LibLite.Types.DoubleConversion
import S4LibLite.Types.DoubleTextTheorems
import S4LibLite.Types.FastDtoaTheorems
import S4LibLite.Types.FixedDtoaTheorems

/-!
# What a double is printed as (`double-conversion.cc`, `s4convertors.h`)

* `roundedDigits_doubleToAscii`, `fixedText_doubleToAscii`, the digits of a double, whichever way
  finds them;
* `readDecimal_convertValue_far`, the text of a double that is not close to zero denotes it, rounded
  to fifteen digits;
* `readDecimal_convertValue_near`, close to zero it is rounded to fifteen digits behind the point.
-/

namespace S4LibLite

open Rounding

/-! ## The sign -/

namespace Double

theorem biasedExponent_neg (v : Double) : v.neg.biasedExponent = v.biasedExponent := by
  have := v.lt
  rw [biasedExponent, biasedExponent, neg]
  dsimp only
  omega

theorem isSpecial_neg (v : Double) : v.neg.isSpecial = v.isSpecial := by
  rw [isSpecial, isSpecial, biasedExponent_neg]

theorem significand_neg (v : Double) : v.neg.significand = v.significand := by
  have hbits : v.neg.d64 % 2 ^ 52 = v.d64 % 2 ^ 52 := by
    rw [neg]
    dsimp only
    omega
  rw [significand, significand, isDenormal, isDenormal, biasedExponent_neg, hbits]

theorem magnitude_neg (v : Double) : v.neg.magnitude = v.magnitude := by
  rw [magnitude, magnitude, significand_neg, exponent, exponent, isDenormal, isDenormal,
    biasedExponent_neg]

/-- `v = -v` for a double below zero changes neither its digits nor its size. -/
theorem without_sign (v : Double) {w : Double} (hw : w = if v.isNegative then v.neg else v) :
    w.isSpecial = v.isSpecial ∧ w.significand = v.significand ∧ w.magnitude = v.magnitude := by
  rw [hw]
  split
  · exact ⟨isSpecial_neg v, significand_neg v, magnitude_neg v⟩
  · exact ⟨rfl, rfl, rfl⟩

end Double

/-! ## The fast ways and the slow one -/

/-- Where `FastDtoa` finds digits, they are those of `BignumDtoa`. -/
theorem bignumDtoa_eq_of_fastDtoaCounted {v : Double} (hfinite : v.isSpecial = false)
    (hpos : 0 < v.significand) {n : ℕ} (hn : 0 < n) (hmax : n ≤ 18) {r : Bytes × ℤ}
    (h : fastDtoaCounted v n = some r) : bignumDtoa v .precision n = r := by
  obtain ⟨hdigits, hpoint⟩ := (roundedDigits_bignumDtoa hfinite hpos hn).unique hn
    (roundedDigits_fastDtoaCounted hfinite hpos hn hmax h)
  exact Prod.ext hdigits hpoint

theorem bignumDtoa_of_fast_third : bignumDtoa ⟨0x3FD5555555555555, by decide⟩ .precision 15
    = (lit "333333333333333", 0) :=
  bignumDtoa_eq_of_fastDtoaCounted (by decide) (by decide) (by decide) (by decide)
    (by decide +kernel)

/-- Where `FastFixedDtoa` finds digits, they are those of `BignumDtoa` without the zeros at their
end. -/
theorem bignumDtoa_eq_of_fastFixedDtoa {v : Double} (hfinite : v.isSpecial = false)
    (hpos : 0 < v.significand) {n : ℕ} {r : Bytes × ℤ} (h : fastFixedDtoa v n = some r) :
    (stripZeros (bignumDtoa v .fixed n).1, (bignumDtoa v .fixed n).2) = r := by
  obtain ⟨htext, hlast⟩ := spec_fastFixedDtoa h
  obtain ⟨hpoint, m, happend⟩ := htext.append_zeros (fixedText_bignumDtoa hfinite hpos n) hlast
  have hstrip : stripZeros r.1 = r.1 := by
    rcases List.eq_nil_or_concat' r.1 with hnil | ⟨front, c, hr⟩
    · rw [hnil]
      rfl
    · rw [hr, stripZeros, List.rdropWhile_concat_neg]
      rw [hr, List.getLast?_concat] at hlast
      rw [beq_iff_eq]
      exact fun hc => hlast (by rw [hc])
  rw [happend, stripZeros_append_zeros, hstrip, ← hpoint]

theorem bignumDtoa_of_fixed_third :
    (stripZeros (bignumDtoa ⟨0x3FD5555555555555, by decide⟩ .fixed 8).1,
      (bignumDtoa ⟨0x3FD5555555555555, by decide⟩ .fixed 8).2) = (lit "33333333", 0) :=
  bignumDtoa_eq_of_fastFixedDtoa (by decide) (by decide) (by decide +kernel)

/-! ## The digits -/

namespace DoubleToStringConverter

/-- **Digits counted from the first** are correctly rounded. -/
theorem roundedDigits_doubleToAscii {v : Double} (hfinite : v.isSpecial = false)
    (hpos : 0 < v.significand) {n : ℕ} (hn : 0 < n) (hmax : n ≤ 18) :
    (doubleToAscii v .precision n).1 = v.isNegative
      ∧ RoundedDigits n v.magnitude (doubleToAscii v .precision n).2.1
        (doubleToAscii v .precision n).2.2 := by
  rw [doubleToAscii]
  dsimp only
  generalize hw : (if v.isNegative then v.neg else v) = w
  obtain ⟨hspecial, hsignificand, hmagnitude⟩ := v.without_sign hw.symm
  rw [← hspecial] at hfinite
  rw [← hsignificand] at hpos
  rw [← hmagnitude, if_neg (by rw [Double.isZero, beq_iff_eq]; omega)]
  refine ⟨rfl, ?_⟩
  dsimp only
  cases hfast : fastDtoaCounted w n with
  | none => exact roundedDigits_bignumDtoa hfinite hpos hn
  | some r => exact roundedDigits_fastDtoaCounted hfinite hpos hn hmax hfast

/-- Zero is one digit. -/
theorem doubleToAscii_zero {v : Double} (hzero : v.isZero = true) (mode : DtoaMode) (n : ℕ) :
    doubleToAscii v mode n = (v.isNegative, [48], 1) := by
  rw [doubleToAscii.eq_def]
  dsimp only
  generalize hw : (if v.isNegative then v.neg else v) = w
  obtain ⟨-, hsignificand, -⟩ := v.without_sign hw.symm
  rw [Double.isZero, ← hsignificand, ← Double.isZero] at hzero
  rw [if_pos hzero]

/-- **Digits behind the point** are correctly rounded. -/
theorem fixedText_doubleToAscii {v : Double} (hfinite : v.isSpecial = false)
    (hpos : 0 < v.significand) (n : ℕ) :
    (doubleToAscii v .fixed n).1 = v.isNegative
      ∧ FixedText n v.magnitude (doubleToAscii v .fixed n).2.1
        (doubleToAscii v .fixed n).2.2 := by
  rw [doubleToAscii]
  dsimp only
  generalize hw : (if v.isNegative then v.neg else v) = w
  obtain ⟨hspecial, hsignificand, hmagnitude⟩ := v.without_sign hw.symm
  rw [← hspecial] at hfinite
  rw [← hsignificand] at hpos
  rw [← hmagnitude, if_neg (by rw [Double.isZero, beq_iff_eq]; omega)]
  refine ⟨rfl, ?_⟩
  dsimp only
  cases hfast : fastFixedDtoa w n with
  | none => exact fixedText_bignumDtoa hfinite hpos n
  | some r => exact (spec_fastFixedDtoa hfast).1

end DoubleToStringConverter

/-! ## Far from zero -/

/-- The largest double has 309 digits. -/
theorem Double.magnitude_le (v : Double) (hfinite : v.isSpecial = false) :
    2 * v.magnitude ≤ 10 ^ (309 : ℤ) := by
  have hf : (v.significand : ℚ) ≤ 2 ^ (53 : ℤ) := by exact_mod_cast v.significand_lt.le
  have he : (2 : ℚ) ^ v.exponent ≤ 2 ^ (971 : ℤ) :=
    zpow_le_zpow_right₀ (by norm_num) (v.exponent_le hfinite)
  have hle : ((2 : ℕ) : ℚ) ^ (1025 : ℤ) ≤ ((10 : ℕ) : ℚ) ^ (309 : ℤ) :=
    zpow_le_of_powLe (by norm_num) (by norm_num) (by decide +kernel)
  have hmul := mul_le_mul hf he (zpow_pos (by norm_num) _).le (zpow_pos (by norm_num) _).le
  rw [← zpow_add₀ (by norm_num)] at hmul
  calc 2 * v.magnitude ≤ 2 * 2 ^ ((53 : ℤ) + 971) := by
        rw [Double.magnitude]
        exact mul_le_mul_of_nonneg_left hmul (by norm_num)
    _ = 2 ^ (1025 : ℤ) := by rw [← zpow_one_add₀ (by norm_num)]; norm_num
    _ ≤ 10 ^ (309 : ℤ) := by exact_mod_cast hle

namespace DoubleConvertor

open DoubleToStringConverter

theorem nearZero_ge : ((10 : ℕ) : ℚ) ^ (-4 : ℤ) ≤ nearZero.value := by
  rw [show nearZero = ⟨7378697629483821, -66⟩ by decide, Binary.value]
  norm_num

theorem nearZero_lt_half : nearZero.value < 1 / 2 := by
  rw [show nearZero = ⟨7378697629483821, -66⟩ by decide, Binary.value]
  norm_num

theorem nearZero_lt_kFirstNonFixed : nearZero.value < kFirstNonFixed.value := by
  rw [show nearZero = ⟨7378697629483821, -66⟩ by decide,
    show kFirstNonFixed = ⟨5605193857299268, 147⟩ by decide, Binary.value, Binary.value]
  norm_num

/-- The digits of a double far from zero fit the layout. -/
theorem exists_doubleAscii {v : Double} (hfinite : v.isSpecial = false)
    (hpos : 0 < v.significand) (hfar : nearZero.value < v.magnitude) :
    ∃ a : DoubleAscii, a.sign = v.isNegative
      ∧ doubleToAscii v .precision significantDigits = (a.sign, a.decimalRep, a.decimalPoint)
      ∧ RoundedDigits 15 v.magnitude a.decimalRep a.decimalPoint := by
  obtain ⟨hsign, hdigits⟩ := roundedDigits_doubleToAscii hfinite hpos
    (show 0 < significantDigits by decide) (show significantDigits ≤ 18 by decide)
  generalize doubleToAscii v .precision significantDigits = ascii at *
  have hv : 0 < v.magnitude := v.magnitude_pos_iff.mpr hpos
  have hlog := hdigits.log_lt (by decide) hv
  have hpoint := hdigits.zpow_point_le (by decide)
  have hge : -4 ≤ Int.log 10 v.magnitude := by
    rw [← Int.zpow_le_iff_le_log (by norm_num) hv]
    exact nearZero_ge.trans hfar.le
  have hle : roundDigits 10 significantDigits v.magnitude < 10 ^ (309 : ℤ) :=
    (roundDigits_lt_two_mul (by norm_num) (by decide) hv).trans_le (v.magnitude_le hfinite)
  have hlt := (zpow_lt_zpow_iff_right₀ (show (1 : ℚ) < 10 by norm_num)).mp (hpoint.trans_lt hle)
  have hne : ascii.2.1 ≠ [] := List.ne_nil_of_length_pos (hdigits.length_eq ▸ by decide)
  exact ⟨⟨ascii.1, ascii.2.1, ascii.2.2, hdigits.digits, hne, hdigits.length_eq.le,
    hdigits.first_ne_zero, by omega, by omega⟩, hsign, rfl, hdigits⟩

/-- `fast_dtoa` prints the digits of `DoubleToAscii`. -/
theorem fastDtoa_eq {v : Double} {a : DoubleAscii} (hfinite : v.isSpecial = false)
    (h : doubleToAscii v .precision significantDigits = (a.sign, a.decimalRep, a.decimalPoint)) :
    fastDtoa v = S4LibLite.fastDtoa a := by
  rw [fastDtoa, DoubleToStringConverter.toPrecision, hfinite, if_neg Bool.false_ne_true,
    if_neg (by decide), h]
  rfl

/-- Zero, with its sign. -/
theorem fastDtoa_zero {v : Double} (hfinite : v.isSpecial = false) (hzero : v.isZero = true) :
    fastDtoa v = numText v.isNegative [48] [] [] := by
  have hlayout : createDecimalRepresentation [48] 1 (max 0 (significantDigits - 1))
      = [48] ++ pointed (List.replicate 14 48) := rfl
  have hfixed : ¬ (-(1 : ℤ) + 1 > significantDigits - 1 ∨ (1 : ℤ) - significantDigits > 0) := by
    decide
  have htrim := @trimTrailingZeros_numText v.isNegative [48] (List.replicate 14 48) [] 0
    (List.all_eq_true.mp rfl) (isDigit_zeros 14) .none
  rw [show stripZeros (List.replicate 14 48) = [] from stripZeros_append_zeros [] 14] at htrim
  rw [fastDtoa, DoubleToStringConverter.toPrecision, hfinite, if_neg Bool.false_ne_true,
    if_neg (by decide), doubleToAscii_zero hzero, ← htrim]
  dsimp only
  rw [if_neg hfixed, hlayout, numText, signText, List.append_nil, List.append_assoc,
    Option.map_some, Option.getD_some]

/-- The text of a double far from zero stays inside its buffer, for paddings up to fifteen. -/
theorem length_padded_fastDtoa {v : Double} {padding : ℤ} (hfinite : v.isSpecial = false)
    (hfar : v.isZero = true ∨ nearZero.value < v.magnitude) (hpadding : padding ≤ 15) :
    (if padding > 0 then padded padding (fastDtoa v) else fastDtoa v).length ≤ bufferSize := by
  by_cases hzero : v.isZero = true
  · rw [fastDtoa_zero hfinite hzero]
    exact length_padded_le (List.all_eq_true.mp rfl) .none hpadding (by decide) (by decide)
  · have hpos : 0 < v.significand := by
      rw [Double.isZero, beq_iff_eq] at hzero
      omega
    obtain ⟨a, -, hascii, -⟩ := exists_doubleAscii hfinite hpos (hfar.resolve_left hzero)
    rw [fastDtoa_eq hfinite hascii]
    exact (length_convert_le a hpadding).2

/-- What comes out far from zero is the text with its zeros, and up to fifteen it comes out. -/
theorem convertValue_far {v : Double} {padding : ℤ} (hisFar : isFar v = true)
    (hne : fastDtoa v ≠ []) :
    (∀ text, convertValue v padding = some text →
        text = if padding > 0 then padded padding (fastDtoa v) else fastDtoa v) ∧
      ((if padding > 0 then padded padding (fastDtoa v) else fastDtoa v).length ≤ bufferSize →
        (convertValue v padding).isSome) := by
  rw [convertValue, if_pos hisFar]
  dsimp only
  rw [if_neg hne]
  by_cases hpos : padding > 0
  · rw [if_pos hpos, if_pos hpos]
    refine ⟨fun text h => eq_of_padZeros h, fun hlen => ?_⟩
    rw [padZeros_of_length_le hlen]
    rfl
  · rw [if_neg hpos, if_neg hpos]
    exact ⟨fun text h => (Option.some.inj h).symm, fun _ => rfl⟩

/-- **Far from zero** the text denotes the double, rounded to fifteen digits; zeros are put behind
it only where it has no exponent. Up to fifteen zeros there is room for it. -/
theorem readDecimal_convertValue_far {v : Double} {padding : ℤ} (hfinite : v.isSpecial = false)
    (hfar : v.isZero = true ∨ nearZero.value < v.magnitude)
    (hpadding : padding ≤ 0 ∨ roundDigits 10 15 v.magnitude < 10 ^ 15) :
    (∀ text, convertValue v padding = some text →
        (readDecimal text).map DecimalText.value
          = some ((if v.isNegative then -1 else 1) * roundDigits 10 15 v.magnitude)) ∧
      (padding ≤ 15 → (convertValue v padding).isSome) := by
  have hisFar : isFar v = true := by
    rw [isFar, hfinite, if_neg Bool.false_ne_true, Bool.or_eq_true, decide_eq_true_eq]
    exact hfar
  suffices h : fastDtoa v ≠ [] ∧
      (readDecimal (if padding > 0 then padded padding (fastDtoa v) else fastDtoa v)).map
          DecimalText.value
        = some ((if v.isNegative then -1 else 1) * roundDigits 10 15 v.magnitude) by
    obtain ⟨htext, hsome⟩ := @convertValue_far v padding hisFar h.1
    refine ⟨fun text hconvert => ?_, fun hfit => hsome (length_padded_fastDtoa hfinite hfar hfit)⟩
    rw [htext text hconvert]
    exact h.2
  by_cases hzero : v.isZero = true
  · have hmagnitude : v.magnitude = 0 := by
      rw [Double.isZero, beq_iff_eq] at hzero
      rw [Double.magnitude, hzero, Nat.cast_zero, zero_mul]
    obtain ⟨m, hm⟩ : ∃ m, (if padding > 0 then padded padding (fastDtoa v) else fastDtoa v)
        = numText v.isNegative [48] (List.replicate m 48) [] := by
      rw [fastDtoa_zero hfinite hzero]
      split
      · exact padded_fixed v.isNegative [] (List.all_eq_true.mp rfl) (by assumption)
      · exact ⟨0, rfl⟩
    have hne : fastDtoa v ≠ [] := by
      rw [fastDtoa_zero hfinite hzero]
      exact numText_ne_nil (List.cons_ne_nil _ _)
    refine ⟨hne, ?_⟩
    rw [hm, readDecimal_numText (List.cons_ne_nil _ _) (List.all_eq_true.mp rfl)
      (isDigit_zeros m) .none, Option.map_some, DecimalText.value]
    dsimp only
    rw [← List.nil_append (List.replicate m 48), partsValue_append_zeros, hmagnitude, roundDigits,
      partsValue, List.append_nil, show decVal [48] = 0 from rfl]
    simp
  · have hpos : 0 < v.significand := by
      rw [Double.isZero, beq_iff_eq] at hzero
      omega
    obtain ⟨a, hsign, hascii, hdigits⟩ := exists_doubleAscii hfinite hpos (hfar.resolve_left hzero)
    rw [fastDtoa_eq hfinite hascii, ← hdigits.value_eq]
    refine ⟨(length_convert_le a (show (0 : ℤ) ≤ 15 by decide)).1, ?_⟩
    have hvalue := @readDecimal_padded a padding <| by
      refine hpadding.symm.imp_left fun hlt => ?_
      have hpoint := (hdigits.zpow_point_le (by norm_num)).trans_lt hlt
      rw [← zpow_natCast, zpow_lt_zpow_iff_right₀ (by norm_num)] at hpoint
      omega
    rw [DoubleAscii.value, hsign, hdigits.length_eq] at hvalue
    exact hvalue

/-- Minus a tenth, with three zeros behind it. -/
theorem readDecimal_convertValue_tenth : ∃ text,
    convertValue ⟨0xBFB999999999999A, by decide⟩ 4 = some text ∧
    (readDecimal text).map DecimalText.value
      = some ((if (⟨0xBFB999999999999A, by decide⟩ : Double).isNegative then -1 else 1)
        * roundDigits 10 15 (⟨0xBFB999999999999A, by decide⟩ : Double).magnitude) := by
  have hsmall : roundDigits 10 15 (⟨0xBFB999999999999A, by decide⟩ : Double).magnitude < 10 ^ 15 :=
    (roundDigits_lt_two_mul (by norm_num) (by decide)
      ((Double.magnitude_pos_iff _).mpr (by decide))).trans (by decide +kernel)
  obtain ⟨hvalue, hsome⟩ := @readDecimal_convertValue_far ⟨0xBFB999999999999A, by decide⟩ 4
    (by decide) (Or.inr (by decide +kernel)) (Or.inr hsmall)
  obtain ⟨text, htext⟩ := Option.isSome_iff_exists.mp (hsome (by decide))
  exact ⟨text, htext, hvalue text htext⟩

/-! ## Close to zero -/

/-- A zero, a point and the fraction. -/
theorem readDecimal_behindPoint (negative : Bool) {fraction : Bytes}
    (hfraction : ∀ c ∈ fraction, isDigit c = true) :
    readDecimal (signText negative ++ [48] ++ 46 :: fraction)
      = some ⟨negative, [48], fraction, 0⟩ := by
  rw [readDecimal_whole (List.cons_ne_nil _ _) (List.all_eq_true.mp rfl) (by simp [isDigit])]
  have hall := List.takeWhile_eq_self_iff.mpr hfraction
  have hnone := List.dropWhile_eq_nil_iff.mpr hfraction
  simp only [List.head?_cons, decide_true, if_true, List.tail_cons, hall, hnone]
  rfl

/-- No more zeros go than there are, and none where another digit has come to the end. -/
theorem spec_discardZeros (discard : ℕ) (t fraction : Bytes) :
    ∃ kept m, fraction = kept ++ List.replicate m 48 ∧ m ≤ discard
      ∧ discardZeros discard (t ++ 46 :: fraction) = t ++ 46 :: kept
      ∧ (m < discard → kept.getLast? ≠ some 48) := by
  induction discard generalizing fraction with
  | zero => exact ⟨fraction, 0, by simp, le_rfl, rfl, fun h => absurd h (by simp)⟩
  | succ discard ih =>
    rw [discardZeros]
    rcases List.eq_nil_or_concat' fraction with rfl | ⟨front, c, rfl⟩
    · exact ⟨[], 0, rfl, Nat.zero_le _, if_neg (by simp), fun _ => by simp⟩
    have hlast : (t ++ 46 :: (front ++ [c])).getLast? = some c := by
      rw [← List.cons_append, ← List.append_assoc, List.getLast?_concat]
    have hdrop : (t ++ 46 :: (front ++ [c])).dropLast = t ++ 46 :: front := by
      rw [← List.cons_append, ← List.append_assoc, List.dropLast_concat]
    rw [hlast, hdrop]
    by_cases hc : c = 48
    · subst hc
      obtain ⟨kept, m, hsplit, hm, htext, hstop⟩ := ih front
      refine ⟨kept, m + 1, ?_, Nat.succ_le_succ hm, ?_, fun h => hstop (Nat.lt_of_succ_lt_succ h)⟩
      · rw [hsplit, List.replicate_succ', List.append_assoc]
      · rw [if_pos rfl, htext]
    · refine ⟨front ++ [c], 0, by simp, Nat.zero_le _, ?_, fun _ => by simpa using hc⟩
      rw [if_neg fun h => hc (Option.some.inj h)]

/-- The fraction of a number close to zero, to all its fifteen digits. -/
theorem fastFixedDtoa_eq {v : Double} (hfinite : v.isSpecial = false)
    (hpos : 0 < v.significand) (hnear : v.magnitude ≤ nearZero.value) :
    ∃ fraction, fastFixedDtoa v = signText v.isNegative ++ [48] ++ 46 :: fraction
      ∧ fraction.length = 15 ∧ (∀ c ∈ fraction, isDigit c = true)
      ∧ partsValue [48] fraction 0 = round (v.magnitude * 10 ^ 15) / 10 ^ 15 := by
  obtain ⟨hsign, htext⟩ := fixedText_doubleToAscii hfinite hpos significantDigits
  have hsmall : ¬ (v.value ≥ kFirstNonFixed.value ∨ v.value ≤ -kFirstNonFixed.value) := by
    have hlt := hnear.trans_lt nearZero_lt_kFirstNonFixed
    have hmag := v.magnitude_pos_iff.mpr hpos
    rw [Double.value, not_or, not_le, not_le]
    split <;> constructor <;> linarith
  rw [fastFixedDtoa, toFixed, hfinite, if_neg Bool.false_ne_true, if_neg (by decide),
    if_neg hsmall]
  dsimp only
  rw [hsign, Option.getD_some]
  generalize doubleToAscii v .fixed significantDigits = ascii at *
  have hlen := htext.length_le
  have hpoint : ascii.2.2 ≤ 0 := by
    by_cases hnil : ascii.2.1 = []
    · rw [htext.point_of_nil hnil]
      decide
    · -- a point behind a digit would make the number larger than it is
      have hpow : (10 ^ (ascii.2.1.length - 1) : ℚ) ≤ decVal ascii.2.1 := by
        exact_mod_cast pow_le_decVal htext.digits hnil htext.first_ne_zero
      have hround : (round (v.magnitude * 10 ^ 15) : ℚ) / 10 ^ 15 < 1 := by
        have hle := round_le_add_half (v.magnitude * 10 ^ 15)
        have hhalf := hnear.trans_lt nearZero_lt_half
        generalize round (v.magnitude * 10 ^ 15) = rounded at hle ⊢
        rw [div_lt_one (by norm_num)]
        linarith
      have hlt : (10 : ℚ) ^ (ascii.2.2 - 1) < 10 ^ (0 : ℤ) := by
        rw [zpow_zero]
        refine lt_of_le_of_lt ?_ hround
        have hlength := List.length_pos_of_ne_nil hnil
        have hvalue := htext.value_eq
        rw [significantDigits] at hvalue
        rw [← hvalue, show ascii.2.2 - 1
          = ((ascii.2.1.length - 1 : ℕ) : ℤ) + (ascii.2.2 - ascii.2.1.length) by omega,
          zpow_add₀ (by norm_num), zpow_natCast]
        exact mul_le_mul_of_nonneg_right hpow (zpow_pos (by norm_num) _).le
      have := (zpow_lt_zpow_iff_right₀ (show (1 : ℚ) < 10 by norm_num)).mp hlt
      omega
  obtain ⟨k, hk⟩ : ∃ k : ℕ, ascii.2.2 = -k := ⟨(-ascii.2.2).toNat, by omega⟩
  rw [hk, significantDigits] at hlen
  rw [createDecimalRepresentation, if_pos hpoint,
    if_pos (show ((significantDigits : ℕ) : ℤ) > 0 by decide), hk, neg_neg, significantDigits]
  have hcount : ((15 : ℕ) - (k : ℤ) - ascii.2.1.length).toNat = 15 - k - ascii.2.1.length := by
    omega
  refine ⟨addPadding k ++ ascii.2.1 ++ addPadding ((15 : ℕ) - k - ascii.2.1.length), ?_, ?_, ?_, ?_⟩
  · rw [signText, List.append_assoc _ [48], List.singleton_append]
  · rw [List.length_append, List.length_append, addPadding, addPadding, List.length_replicate,
      List.length_replicate, hcount, Int.toNat_natCast]
    omega
  · exact List.forall_mem_append.mpr ⟨List.forall_mem_append.mpr ⟨isDigit_zeros _, htext.digits⟩,
      isDigit_zeros _⟩
  · have hvalue := htext.value_eq
    rw [significantDigits, hk] at hvalue
    have hzeros : [48] ++ List.replicate k 48 = List.replicate (k + 1) (48 : UInt8) := rfl
    rw [addPadding, addPadding, partsValue_append_zeros, partsValue, ← List.append_assoc,
      Int.toNat_natCast, hzeros, decVal_append, decVal_zeros, zero_mul, zero_add, ← hvalue,
      List.length_append, List.length_replicate]
    congr 2
    push_cast
    ring

/-- **Close to zero** the text is a sign, a zero, a point and digits, and denotes the double,
rounded to fifteen digits behind the point; all zeros at its end but those that padding asks for
are dropped. -/
theorem readDecimal_convertValue_near {v : Double} (hfinite : v.isSpecial = false)
    (hpos : 0 < v.significand) (hnear : v.magnitude ≤ nearZero.value) (padding : ℤ) :
    ∃ fraction, convertValue v padding = some (signText v.isNegative ++ [48] ++ 46 :: fraction)
      ∧ (∀ c ∈ fraction, isDigit c = true)
      ∧ (convertValue v padding).bind readDecimal = some ⟨v.isNegative, [48], fraction, 0⟩
      ∧ partsValue [48] fraction 0 = round (v.magnitude * 10 ^ 15) / 10 ^ 15
      ∧ fraction.length ≤ 15 ∧ min padding 15 ≤ fraction.length
      ∧ (padding < fraction.length → fraction.getLast? ≠ some 48) := by
  obtain ⟨fraction, htext, hlen, hdigits, hvalue⟩ := fastFixedDtoa_eq hfinite hpos hnear
  have hisFar : isFar v = false := by
    rw [isFar, hfinite, if_neg Bool.false_ne_true, Double.isZero, Bool.or_eq_false_iff,
      beq_eq_false_iff_ne, decide_eq_false_iff_not, not_lt]
    exact ⟨by omega, hnear⟩
  rw [convertValue, hisFar, if_neg Bool.false_ne_true]
  dsimp only
  rw [htext, if_neg (by simp)]
  split
  · obtain ⟨kept, m, rfl, hm, hkept, hstop⟩ :=
      spec_discardZeros (significantDigits - padding).toNat (signText v.isNegative ++ [48]) fraction
    rw [List.length_append, List.length_replicate] at hlen
    rw [significantDigits] at hm hstop
    have hdigits' : ∀ c ∈ kept, isDigit c = true := fun c hc =>
      hdigits c (List.mem_append_left _ hc)
    rw [hkept]
    refine ⟨kept, rfl, hdigits', readDecimal_behindPoint _ hdigits', ?_, by omega, by omega,
      fun h => hstop (by omega)⟩
    rwa [partsValue_append_zeros] at hvalue
  · have hstrip := stripZeros_cons (show (46 : UInt8) ≠ 48 by decide)
      (signText v.isNegative ++ [48]) fraction
    rw [← stripZeros, hstrip]
    have hle := length_stripZeros_le fraction
    refine ⟨stripZeros fraction, rfl, isDigit_stripZeros hdigits,
      readDecimal_behindPoint _ (isDigit_stripZeros hdigits), ?_, by omega, by omega,
      fun _ => getLast?_stripZeros fraction⟩
    rw [partsValue_stripZeros, hvalue]

/-- Minus a hundred thousandth. -/
theorem readDecimal_convertValue_hundred_thousandth : ∃ fraction,
    convertValue ⟨0xBEE4F8B588E368F1, by decide⟩ 3 = some (lit "-0." ++ fraction)
      ∧ partsValue [48] fraction 0
        = round ((⟨0xBEE4F8B588E368F1, by decide⟩ : Double).magnitude * 10 ^ 15) / 10 ^ 15
      ∧ fraction.length ≤ 15 ∧ min 3 15 ≤ (fraction.length : ℤ)
      ∧ ((3 : ℤ) < fraction.length → fraction.getLast? ≠ some 48) := by
  obtain ⟨fraction, htext, -, -, hvalue, hlen⟩ := @readDecimal_convertValue_near
    ⟨0xBEE4F8B588E368F1, by decide⟩ (by decide) (by decide) (by decide +kernel) 3
  exact ⟨fraction, htext, hvalue, hlen⟩

end DoubleConvertor

end S4LibLite

import S4LibLite.Types.DoubleConversionTheorems
import S4LibLite.Types.StringToDouble
import S4LibLite.Types.StrtodTheorems

/-!
# What `DoubleConvertor` reads (`s4convertors.h`)

Of the digits of a text the zeros in front are skipped, those behind the first 772 only leave a
mark, and the exponent keeps their place; this changes the number but not the double next to it.

* `Reading.Copied.roundsTo`, the digits that were copied;
* `spec_stringToIeee`, a text of digits around a point;
* `convertText_eq_some_iff`, what is accepted, and as which double.
-/

namespace S4LibLite

open Rounding

/-! ## Zeros in front -/

theorem dropWhile_zeros_append {s t : Bytes} (ht : t.head? ≠ some 48) :
    (s ++ t).dropWhile (· == 48) = s.dropWhile (· == 48) ++ t := by
  have hskip : t.dropWhile (· == 48) = t := by
    cases t with
    | nil => rfl
    | cons c t => exact List.dropWhile_cons_of_neg fun h => ht (by rw [beq_iff_eq.mp h]; rfl)
  rw [List.dropWhile_append]
  split
  · rename_i h
    rw [List.isEmpty_iff.mp h, hskip, List.nil_append]
  · rfl

theorem roundsTo_zero_zero : RoundsTo doubleAt kInfinity 0 0 := by
  have h0 := RoundsTo.self strictMono_doubleAt (Nat.zero_le kInfinity)
  rwa [doubleAt_zero] at h0

/-- Digits are worth something if one of them is no zero. -/
theorem decVal_pos_iff {s : Bytes} (hs : ∀ c ∈ s, isDigit c = true) :
    0 < decVal s ↔ s.any (· != 48) = true := by
  induction s with
  | nil => simp [decVal_nil]
  | cons c s ih =>
    rw [decVal_cons, List.any_cons, Bool.or_eq_true,
      ← ih fun d hd => hs d (List.mem_cons_of_mem _ hd)]
    by_cases hc : c = 48
    · subst hc
      rw [show digitVal 48 = 0 from rfl]
      simp
    · have hpos := digitVal_pos (Or.inl (hs c List.mem_cons_self)) hc
      have := Nat.mul_pos hpos (Nat.pow_pos (show 0 < 10 by norm_num) (n := s.length))
      simp [hc]
      omega

namespace StringToDoubleConverter

/-! ## Digits that are copied -/

namespace Reading

section Copied

variable {r : Reading} {digits : Bytes} {e : ℤ}

/-- The digits that were read, with the exponent `e` of the last one: the first 772 are copied, and
there is a mark if others than zeros follow. -/
structure Copied (r : Reading) (digits : Bytes) (e : ℤ) : Prop where
  buffer_eq : r.buffer = digits.take 772
  dropped_eq : r.nonzeroDigitDropped = (digits.drop 772).any (· != 48)
  exponent_eq : r.exponent + r.insignificantDigits = e + (digits.length - 772 : ℕ)

/-- Nothing has been copied. -/
theorem copied_start : start.Copied [] 0 := ⟨rfl, rfl, rfl⟩

/-- The first 772 digits are kept; what follows goes behind them. -/
theorem Copied.room (h : r.Copied digits e) :
    r.buffer.length < kMaxSignificantDigits ↔ digits.length < 772 := by
  rw [h.buffer_eq, List.length_take, kMaxSignificantDigits]
  omega

/-- One character more is kept where there is room. -/
theorem take_concat (s : Bytes) (c : UInt8) :
    (s ++ [c]).take 772 = if s.length < 772 then s.take 772 ++ [c] else s.take 772 := by
  split
  · rename_i h
    rw [List.take_of_length_le h.le, List.take_of_length_le (by simpa using h)]
  · rename_i h
    rw [List.take_append_of_le_length (Nat.le_of_not_lt h)]

/-- And where there is none it counts as dropped. -/
theorem any_drop_concat (s : Bytes) (c : UInt8) (p : UInt8 → Bool) :
    ((s ++ [c]).drop 772).any p
      = if s.length < 772 then (s.drop 772).any p else ((s.drop 772).any p || p c) := by
  split
  · rename_i h
    rw [List.drop_of_length_le h.le, List.drop_of_length_le (by simpa using h)]
  · rename_i h
    rw [List.drop_append_of_le_length (Nat.le_of_not_lt h), List.any_append, List.any_cons,
      List.any_nil, Bool.or_false]

/-- A digit in front of the point. -/
theorem Copied.integerDigit (h : r.Copied digits e) (c : UInt8) :
    (r.integerDigit c).Copied (digits ++ [c]) e := by
  have hexponent := h.exponent_eq
  have hlength : (digits ++ [c]).length = digits.length + 1 := by simp
  rw [Reading.integerDigit, if_congr h.room rfl rfl]
  split
  · rename_i hroom
    exact ⟨by rw [take_concat, if_pos hroom, h.buffer_eq],
      by rw [any_drop_concat, if_pos hroom, h.dropped_eq], hexponent.trans (by omega)⟩
  · rename_i hfull
    exact ⟨by rw [take_concat, if_neg hfull, h.buffer_eq],
      by rw [any_drop_concat, if_neg hfull, h.dropped_eq], by
        dsimp only
        omega⟩

/-- A digit behind it. -/
theorem Copied.fractionDigit (h : r.Copied digits e) (c : UInt8) :
    (r.fractionDigit c).Copied (digits ++ [c]) (e - 1) := by
  have hexponent := h.exponent_eq
  have hlength : (digits ++ [c]).length = digits.length + 1 := by simp
  rw [Reading.fractionDigit, if_congr h.room rfl rfl]
  split
  · rename_i hroom
    exact ⟨by rw [take_concat, if_pos hroom, h.buffer_eq],
      by rw [any_drop_concat, if_pos hroom, h.dropped_eq], by
        dsimp only
        omega⟩
  · rename_i hfull
    exact ⟨by rw [take_concat, if_neg hfull, h.buffer_eq],
      by rw [any_drop_concat, if_neg hfull, h.dropped_eq], by
        dsimp only
        omega⟩

/-- All digits in front of the point. -/
theorem Copied.integerDigits (h : r.Copied digits e) (s : Bytes) :
    (s.foldl Reading.integerDigit r).Copied (digits ++ s) e := by
  induction s generalizing r digits with
  | nil => rwa [List.append_nil]
  | cons c s ih =>
    have hstep := ih (h.integerDigit c)
    rwa [List.append_assoc, List.singleton_append] at hstep

/-- All digits behind it. -/
theorem Copied.fractionDigits (h : r.Copied digits e) (s : Bytes) :
    (s.foldl Reading.fractionDigit r).Copied (digits ++ s) (e - s.length) := by
  induction s generalizing r digits e with
  | nil => rwa [List.append_nil, List.length_nil, Nat.cast_zero, sub_zero]
  | cons c s ih =>
    have hstep := ih (h.fractionDigit c)
    rwa [List.append_assoc, List.singleton_append, sub_sub, add_comm, ← Nat.cast_succ] at hstep

/-- **The digits that were copied** give the double next to all of them. -/
theorem Copied.roundsTo (h : r.Copied digits e) (hdigits : ∀ c ∈ digits, isDigit c = true)
    (hhead : digits.head? ≠ some 48) (hlow : -2 ^ 31 ≤ e) (hhigh : e + digits.length < 2 ^ 31) :
    ∃ d, r.converted = some d ∧ RoundsTo doubleAt kInfinity (decVal digits * 10 ^ e) d.d64 := by
  have hrest : ∀ c ∈ digits.drop 772, isDigit c = true := fun c hc =>
    hdigits c (List.mem_of_mem_drop hc)
  have hfront : (digits.take 772).length = min 772 digits.length := List.length_take
  rw [converted, h.exponent_eq, h.buffer_eq, h.dropped_eq,
    inInt_of_lt (x := e + (digits.length - 772 : ℕ)) (by omega) (by omega), Option.bind_eq_bind,
    Option.bind_some]
  split
  · rename_i hmark
    have habove := (decVal_pos_iff hrest).mpr hmark
    have hmany : 772 < digits.length := by
      by_contra hfew
      rw [List.drop_of_length_le (by omega), decVal_nil] at habove
      exact lt_irrefl _ habove
    have hmarked : (digits.take 772 ++ [49]).length = 773 := by
      rw [List.length_append, hfront, List.length_singleton]
      omega
    rw [inInt_of_lt (x := e + (digits.length - 772 : ℕ) - 1) (by omega) (by omega),
      Option.bind_some]
    obtain ⟨d, hd, hround⟩ := @spec_strtod _ (isDigit_marked hdigits 772)
      (e + (digits.length - 772 : ℕ) - 1) (by omega) (by omega) (by omega)
    exact ⟨d, hd, roundsTo_of_marked hdigits hhead le_rfl (by omega) habove hround⟩
  · rename_i hmark
    have hzero : decVal (digits.drop 772) = 0 := Nat.eq_zero_of_not_pos fun hpos =>
      hmark ((decVal_pos_iff hrest).mp hpos)
    have hsplit := decVal_append (digits.take 772) (digits.drop 772)
    rw [List.take_append_drop, hzero, Nat.add_zero, List.length_drop] at hsplit
    rw [hsplit, Nat.cast_mul, Nat.cast_pow, Nat.cast_ofNat, mul_assoc, ← zpow_natCast,
      ← zpow_add₀ (by norm_num), add_comm _ e]
    exact spec_strtod (fun c hc => hdigits c (List.mem_of_mem_take hc)) (by omega) (by omega)
      (by omega)

/-- With its sign. -/
theorem Copied.signed (h : r.Copied digits e) (hdigits : ∀ c ∈ digits, isDigit c = true)
    (hhead : digits.head? ≠ some 48) (hlow : -2 ^ 31 ≤ e) (hhigh : e + digits.length < 2 ^ 31)
    (sign : Bool) :
    ∃ d : Double, r.signed sign = some (some (d.withSign sign))
      ∧ RoundsTo doubleAt kInfinity (decVal digits * 10 ^ e) d.d64 := by
  obtain ⟨d, hd, hround⟩ := h.roundsTo hdigits hhead hlow hhigh
  exact ⟨d, by rw [Reading.signed, hd]; rfl, hround⟩

end Copied

end Reading

/-! ## Digits around a point -/

section Text

variable {sign leadingZero : Bool} {r : Reading} {whole fraction tail : Bytes}

/-- What follows the integer part: nothing, or a point and a fraction, which may be empty. -/
def Behind (tail fraction : Bytes) : Prop := tail = [] ∧ fraction = [] ∨ tail = 46 :: fraction

/-- An integer part is followed by no digit. -/
theorem Behind.head (h : Behind tail fraction) : ∀ c ∈ tail.head?, c = 46 := by
  intro c hc
  rcases h with ⟨rfl, -⟩ | rfl
  · exact absurd hc (by simp)
  · exact (Option.some.inj hc).symm

/-- Behind the digits of the integer part, of which `digits` are left without zeros in front. -/
theorem spec_readFraction {digits : Bytes} (hr : r.Copied digits 0)
    (hempty : digits = [] → r.exponent = 0)
    (hdigits : ∀ c ∈ digits, isDigit c = true) (hhead : digits.head? ≠ some 48)
    (hfraction : ∀ c ∈ fraction, isDigit c = true) (htail : Behind tail fraction)
    (hsome : digits = [] → leadingZero = true ∨ fraction ≠ [])
    (hlen : (digits ++ fraction).length < 2 ^ 31) :
    ∃ d : Double, readFraction sign leadingZero r tail = some (some (d.withSign sign))
      ∧ RoundsTo doubleAt kInfinity (decVal (digits ++ fraction) * 10 ^ (-fraction.length : ℤ))
        d.d64 := by
  have hbuffer : r.buffer = [] ↔ digits = [] := by
    rw [hr.buffer_eq, List.take_eq_nil_iff]
    simp
  rw [List.length_append] at hlen
  rw [readFraction]
  rcases htail with ⟨rfl, rfl⟩ | rfl
  · rw [if_pos rfl, List.append_nil]
    exact hr.signed hdigits hhead (by norm_num) (by omega) sign
  rw [if_neg (List.cons_ne_nil _ _), if_pos List.head?_cons, List.tail_cons]
  dsimp only
  by_cases hnil : fraction = []
  · subst hnil
    rw [if_pos rfl, if_neg, List.append_nil]
    · exact hr.signed hdigits hhead (by norm_num) (by omega) sign
    · rintro ⟨hb, hz⟩
      rcases hsome (hbuffer.mp hb) with h | h
      · rw [hz] at h
        exact absurd h (by simp)
      · exact h rfl
  rw [if_neg hnil]
  by_cases hb : r.buffer = []
  · -- the zeros behind the point are in the exponent
    have hdigits0 := hbuffer.mp hb
    subst hdigits0
    have hzeros := List.takeWhile_append_dropWhile (p := (· == 48)) (l := fraction)
    have hvalue := decVal_dropWhile fraction
    have hlength := congrArg List.length hzeros
    have hrest : ∀ c ∈ fraction.dropWhile (· == 48), isDigit c = true := fun c hc =>
      hfraction c ((List.dropWhile_sublist _).subset hc)
    have hfirst := head?_dropWhile_zeros fraction
    rw [List.length_append] at hlength
    rw [List.nil_append, ← hvalue]
    simp only [if_pos hb]
    generalize fraction.dropWhile (· == 48) = rest at *
    by_cases hrest0 : rest = []
    · rw [if_pos ⟨hb, hrest0⟩, hrest0, decVal_nil, Nat.cast_zero, zero_mul]
      refine ⟨_, rfl, ?_⟩
      rw [Double.d64_ofBits (Nat.zero_le _)]
      exact roundsTo_zero_zero
    · rw [if_neg fun h => hrest0 h.2, List.takeWhile_eq_self_iff.mpr hrest,
        List.dropWhile_eq_nil_iff.mpr hrest, if_pos rfl]
      have hcopied : ({ r with exponent := r.exponent - (fraction.takeWhile (· == 48)).length } :
          Reading).Copied [] (-(fraction.takeWhile (· == 48)).length) := by
        have hexponent := hr.exponent_eq
        rw [hempty rfl] at hexponent ⊢
        refine ⟨hr.buffer_eq, hr.dropped_eq, ?_⟩
        dsimp only at hexponent ⊢
        rw [List.length_nil] at hexponent ⊢
        omega
      have hresult := (hcopied.fractionDigits rest).signed
        (by rwa [List.nil_append]) (by rwa [List.nil_append]) (by omega)
        (by rw [List.nil_append]; omega) sign
      rwa [List.nil_append, show (-((fraction.takeWhile (· == 48)).length : ℤ) - rest.length)
        = -fraction.length by omega] at hresult
  · have hne : digits ≠ [] := fun h => hb (hbuffer.mpr h)
    simp only [if_neg hb, List.length_nil, Nat.cast_zero, sub_zero]
    rw [if_neg fun h => hb h.1, List.takeWhile_eq_self_iff.mpr hfraction,
      List.dropWhile_eq_nil_iff.mpr hfraction, if_pos rfl]
    have hresult := (hr.fractionDigits fraction).signed
      (fun c hc => (List.mem_append.mp hc).elim (hdigits c) (hfraction c))
      (by rwa [List.head?_append_of_ne_nil _ hne]) (by omega)
      (by rw [List.length_append]; omega) sign
    rw [zero_sub] at hresult
    exact hresult

/-- A text that goes on behind the number is junk. -/
theorem readFraction_nul (hfraction : ∀ c ∈ fraction, isDigit c = true)
    (htail : Behind tail fraction) (rest : Bytes) :
    readFraction sign leadingZero r (tail ++ 0 :: rest) = junk := by
  have hexponent : ∀ r : Reading, readExponentPart sign leadingZero r (0 :: rest) = junk :=
    fun r => by
      rw [readExponentPart]
      split
      · rfl
      · rw [if_neg (by simp)]
  rw [readFraction]
  rcases htail with ⟨rfl, rfl⟩ | rfl
  · rw [List.nil_append, if_neg (List.cons_ne_nil _ _), if_neg (by simp), hexponent]
  rw [List.cons_append, if_neg (List.cons_ne_nil _ _), if_pos List.head?_cons, List.tail_cons]
  dsimp only
  rw [if_neg (List.append_ne_nil_of_right_ne_nil _ (List.cons_ne_nil _ _))]
  have hrun : ∀ (r : Reading) (s : Bytes), (∀ c ∈ s, isDigit c = true) →
      (if (s ++ 0 :: rest).dropWhile isDigit = [] then r.signed sign
        else readExponentPart sign leadingZero r ((s ++ 0 :: rest).dropWhile isDigit)) = junk := by
    intro r s hs
    rw [dropWhile_run hs (by simp [isDigit]), if_neg (List.cons_ne_nil _ _), hexponent]
  by_cases hb : r.buffer = []
  · simp only [if_pos hb]
    rw [dropWhile_zeros_append (by simp), if_neg fun h => absurd h.2 (by simp)]
    exact hrun _ _ fun c hc => hfraction c ((List.dropWhile_sublist _).subset hc)
  · simp only [if_neg hb]
    rw [if_neg fun h => hb h.1]
    exact hrun _ _ hfraction

end Text

/-! ## A whole text -/

section Whole

variable {sign negative : Bool} {s whole fraction tail : Bytes}

theorem mem_head?_append {t : Bytes} (hwhole : ∀ c ∈ whole, isDigit c = true) {c : UInt8}
    (hc : c ∈ (whole ++ t).head?) : isDigit c = true ∨ c ∈ t.head? := by
  cases whole with
  | nil => exact Or.inr hc
  | cons d whole =>
    obtain rfl := Option.some.inj hc
    exact Or.inl (hwhole _ List.mem_cons_self)

/-- The digits of the integer part, and what follows them. -/
theorem readUnsigned_eq (sign : Bool) (hwhole : ∀ c ∈ whole, isDigit c = true) {t : Bytes}
    (ht : ∀ c ∈ t.head?, c = 46 ∨ c = 0) :
    readUnsigned sign (whole ++ t) =
      if (((whole ++ t).head? == some 48) = true) ∧ whole.dropWhile (· == 48) ++ t = [] then
        some (some ((Double.ofBits 0).withSign sign))
      else readFraction sign ((whole ++ t).head? == some 48)
        ((whole.dropWhile (· == 48)).foldl Reading.integerDigit .start) t := by
  have hother : ∀ c : UInt8, isDigit c = false → c ≠ 46 → c ≠ 0 → (whole ++ t).head? ≠ some c := by
    intro c hdigit hpoint hnul h
    rcases mem_head?_append hwhole h with h | h
    · rw [h] at hdigit
      exact absurd hdigit (by simp)
    · exact (ht c h).elim hpoint hnul
  have hrun : ∀ c ∈ t.head?, isDigit c = false := fun c hc => by
    rcases ht c hc with rfl | rfl <;> rfl
  rw [readUnsigned, if_neg (hother 73 rfl (by decide) (by decide)),
    if_neg (hother 78 rfl (by decide) (by decide))]
  dsimp only
  rw [dropWhile_zeros_append fun h => absurd (hrun 48 h) (by decide),
    takeWhile_run (fun c hc => hwhole c ((List.dropWhile_sublist _).subset hc)) hrun,
    dropWhile_run (fun c hc => hwhole c ((List.dropWhile_sublist _).subset hc)) hrun]

/-- What is read behind the sign is the double nearest to the digits. -/
theorem spec_readUnsigned (sign : Bool) (hwhole : ∀ c ∈ whole, isDigit c = true)
    (hfraction : ∀ c ∈ fraction, isDigit c = true) (htail : Behind tail fraction)
    (hsome : whole ++ fraction ≠ []) (hlen : (whole ++ fraction).length < 2 ^ 31) :
    ∃ d : Double, readUnsigned sign (whole ++ tail) = some (some (d.withSign sign))
      ∧ RoundsTo doubleAt kInfinity (decVal (whole ++ fraction) * 10 ^ (-fraction.length : ℤ))
        d.d64 := by
  have hdigits : ∀ c ∈ whole.dropWhile (· == 48), isDigit c = true := fun c hc =>
    hwhole c ((List.dropWhile_sublist _).subset hc)
  have hvalue : decVal (whole ++ fraction) = decVal (whole.dropWhile (· == 48) ++ fraction) := by
    rw [decVal_append, decVal_append, decVal_dropWhile]
  rw [readUnsigned_eq sign hwhole fun c hc => Or.inl (htail.head c hc), hvalue]
  split
  · rename_i hzero
    obtain ⟨hnone, rfl⟩ := List.append_eq_nil_iff.mp hzero.2
    have hfraction0 : fraction = [] := htail.elim And.right fun h => absurd h (by simp)
    refine ⟨_, rfl, ?_⟩
    rw [hnone, hfraction0, List.append_nil, decVal_nil, Nat.cast_zero, zero_mul,
      Double.d64_ofBits (Nat.zero_le _)]
    exact roundsTo_zero_zero
  · have hcopied := Reading.copied_start.integerDigits (whole.dropWhile (· == 48))
    rw [List.nil_append] at hcopied
    have hshort := (List.dropWhile_sublist (p := (· == 48)) (l := whole)).length_le
    rw [List.length_append] at hlen
    refine spec_readFraction hcopied (fun h => by rw [h]; rfl) hdigits (head?_dropWhile_zeros whole)
      hfraction htail (fun h => ?_) (by rw [List.length_append]; omega)
    by_cases hw : whole = []
    · exact Or.inr fun hf => hsome (by rw [hw, hf]; rfl)
    · -- an integer part of zeros only
      obtain ⟨c, whole, rfl⟩ := List.exists_cons_of_ne_nil hw
      have hc := List.dropWhile_eq_nil_iff.mp h c List.mem_cons_self
      exact Or.inl (by rw [List.cons_append, List.head?_cons, beq_iff_eq.mp hc]; rfl)

/-- The sign is read, and the rest behind it. -/
theorem stringToIeee_signText (negative : Bool) (hne : s ≠ [])
    (hhead : ∀ c ∈ s.head?, isDigit c = true ∨ c = 46) :
    stringToIeee (signText negative ++ s) = readUnsigned negative s := by
  obtain ⟨c, s, rfl⟩ := List.exists_cons_of_ne_nil hne
  have hc := hhead c rfl
  have hplain : c ≠ 43 ∧ c ≠ 45 ∧ isWhitespace c = false := by
    rcases hc with hc | rfl
    · refine ⟨fun h => ?_, fun h => ?_, Bool.eq_false_iff.mpr fun h => ?_⟩
      · subst h
        exact absurd hc (by decide)
      · subst h
        exact absurd hc (by decide)
      · have hspace : ([32, 13, 10, 9, 11, 12] : Bytes).all (fun d => !isDigit d) = true := rfl
        have hno := List.all_eq_true.mp hspace c (List.contains_iff_mem.mp h)
        rw [hc] at hno
        exact absurd hno (by simp)
    · exact ⟨by decide, by decide, rfl⟩
  rw [stringToIeee, signText]
  cases negative
  · simp [hplain.1, hplain.2.1]
  · simp [hplain.2.2]

/-- A number in digits: an optional minus sign, and digits with an optional point in front of them,
among them or behind them. -/
structure Written (s : Bytes) (negative : Bool) (whole fraction : Bytes) : Prop where
  whole_digits : ∀ c ∈ whole, isDigit c = true
  fraction_digits : ∀ c ∈ fraction, isDigit c = true
  ne_nil : whole ++ fraction ≠ []
  text : ∃ tail, Behind tail fraction ∧ s = signText negative ++ (whole ++ tail)

theorem Written.head (h : Behind tail fraction) (hwhole : ∀ c ∈ whole, isDigit c = true) (t : Bytes)
    (hsome : whole ++ fraction ≠ []) :
    whole ++ (tail ++ t) ≠ [] ∧ ∀ c ∈ (whole ++ (tail ++ t)).head?, isDigit c = true ∨ c = 46 := by
  rcases h with ⟨rfl, rfl⟩ | rfl
  · rw [List.append_nil] at hsome
    refine ⟨List.append_ne_nil_of_left_ne_nil hsome _, fun c hc => ?_⟩
    rw [List.head?_append_of_ne_nil _ hsome] at hc
    exact Or.inl (hwhole c (List.mem_of_mem_head? hc))
  · refine ⟨List.append_ne_nil_of_right_ne_nil _ (List.cons_ne_nil _ _), fun c hc => ?_⟩
    rcases mem_head?_append hwhole hc with h | h
    · exact Or.inl h
    · exact Or.inr (Option.some.inj h).symm

/-- No text has more digits than characters. -/
theorem Written.length_le (h : Written s negative whole fraction) :
    (whole ++ fraction).length ≤ s.length := by
  obtain ⟨-, -, -, tail, htail, rfl⟩ := h
  have hbehind : fraction.length ≤ tail.length := by
    rcases htail with ⟨rfl, rfl⟩ | rfl
    · exact le_rfl
    · exact Nat.le_succ _
  rw [List.length_append, List.length_append, List.length_append]
  omega

/-- **A number in digits** is read whole, as the nearest double. -/
theorem spec_stringToIeee (h : Written s negative whole fraction) (hlen : s.length < 2 ^ 31) :
    ∃ d : Double, stringToIeee s = some (some (d.withSign negative))
      ∧ RoundsTo doubleAt kInfinity (partsValue whole fraction 0) d.d64 := by
  have hshort := h.length_le.trans_lt hlen
  obtain ⟨hwhole, hfraction, hsome, tail, htail, rfl⟩ := h
  obtain ⟨hne, hhead⟩ := Written.head htail hwhole [] hsome
  rw [List.append_nil] at hne hhead
  rw [stringToIeee_signText negative hne hhead, partsValue, zero_sub]
  exact spec_readUnsigned negative hwhole hfraction htail hsome hshort

/-- With a NUL behind it, it is junk. -/
theorem stringToIeee_nul (h : Written s negative whole fraction) (rest : Bytes) :
    stringToIeee (s ++ 0 :: rest) = junk := by
  obtain ⟨hwhole, hfraction, hsome, tail, htail, rfl⟩ := h
  obtain ⟨hne, hhead⟩ := Written.head htail hwhole (0 :: rest) hsome
  rw [List.append_assoc, List.append_assoc, stringToIeee_signText negative hne hhead,
    readUnsigned_eq negative hwhole, if_neg, readFraction_nul hfraction htail]
  · rw [← List.append_assoc]
    exact fun h => absurd h.2 (by simp)
  · intro c hc
    rcases htail with ⟨rfl, -⟩ | rfl
    · exact Or.inr (Option.some.inj hc).symm
    · exact Or.inl (Option.some.inj hc).symm

end Whole

end StringToDoubleConverter

namespace DoubleConvertor

open StringToDoubleConverter

section Convert

variable {s whole fraction : Bytes} {negative : Bool} {v : Double}

/-- **The checks** let exactly the numbers in digits through. -/
theorem hasDigits_iff : hasDigits s = true ↔
    ∃ negative whole fraction, Written s negative whole fraction := by
  constructor
  · intro h
    rw [hasDigits] at h
    obtain ⟨negative, i, hi, hs⟩ : ∃ negative i, (if s.head? = some 45 then s.tail else s) = i
        ∧ s = signText negative ++ i := by
      cases s with
      | nil => exact ⟨false, [], rfl, rfl⟩
      | cons c s =>
        by_cases hc : c = 45
        · exact ⟨true, s, by rw [hc]; rfl, by rw [hc]; rfl⟩
        · exact ⟨false, c :: s, if_neg fun h => hc (Option.some.inj h), rfl⟩
    rw [hi] at h
    have hsplit := List.takeWhile_append_dropWhile (p := isDigit) (l := i)
    have hwhole : ∀ c ∈ i.takeWhile isDigit, isDigit c = true := fun c hc =>
      List.mem_takeWhile_imp hc
    generalize i.takeWhile isDigit = whole at *
    generalize i.dropWhile isDigit = rest at *
    rw [Bool.and_eq_true, List.isEmpty_iff, Bool.not_eq_true', Bool.and_eq_false_iff] at h
    by_cases hpoint : rest.head? = some 46
    · rw [hpoint] at h
      simp only [beq_self_eq_true, if_true] at h
      obtain ⟨hend, hsome⟩ := h
      have hall := List.dropWhile_eq_nil_iff.mp hend
      rw [List.takeWhile_eq_self_iff.mpr hall] at hsome
      obtain ⟨t, rfl⟩ : ∃ t, rest = 46 :: t := List.head?_eq_some_iff.mp hpoint
      refine ⟨negative, whole, t, hwhole, hall, fun hnil => ?_, 46 :: t, Or.inr rfl, by
        rw [hs, hsplit]⟩
      obtain ⟨rfl, rfl⟩ := List.append_eq_nil_iff.mp hnil
      exact absurd hsome (by simp)
    · have hnot : (rest.head? == some 46) = false := by simpa using hpoint
      rw [hnot] at h
      simp only [Bool.false_eq_true, if_false] at h
      obtain ⟨rfl, hsome⟩ := h
      refine ⟨negative, whole, [], hwhole, nofun, fun hnil => ?_, [], Or.inl ⟨rfl, rfl⟩, by
        rw [hs, hsplit]⟩
      obtain ⟨rfl, -⟩ := List.append_eq_nil_iff.mp hnil
      exact absurd hsome (by simp)
  · rintro ⟨negative, whole, fraction, hwhole, hfraction, hsome, tail, htail, rfl⟩
    obtain ⟨hne, hhead⟩ := Written.head htail hwhole [] hsome
    rw [List.append_nil] at hne hhead
    have hi : (if (signText negative ++ (whole ++ tail)).head? = some 45
        then (signText negative ++ (whole ++ tail)).tail
        else signText negative ++ (whole ++ tail)) = whole ++ tail := by
      cases negative
      · exact if_neg fun h => (hhead 45 h).elim (by decide) (by decide)
      · rfl
    have hrun : ∀ c ∈ tail.head?, isDigit c = false := fun c hc => by
      rw [htail.head c hc]
      rfl
    rw [hasDigits, hi, takeWhile_run hwhole hrun, dropWhile_run hwhole hrun]
    rcases htail with ⟨rfl, rfl⟩ | rfl
    · rw [List.append_nil] at hsome
      simpa using hsome
    · have hall := List.dropWhile_eq_nil_iff.mpr hfraction
      have hself := List.takeWhile_eq_self_iff.mpr hfraction
      simp only [List.head?_cons, beq_self_eq_true, if_true, List.tail_cons, hall, hself]
      simpa [Classical.or_iff_not_imp_left] using hsome

theorem isNan_withSign {d : Double} (h : d.d64 ≤ kInfinity) (negative : Bool) :
    (d.withSign negative).isNan = false := by
  rw [Double.kInfinity_eq] at h
  have hlt := d.lt
  rw [Double.isNan, Double.isSpecial, Double.biasedExponent, Bool.and_eq_false_iff,
    beq_eq_false_iff_ne, decide_eq_false_iff_not, not_not]
  cases negative
  · rw [Double.withSign, if_neg (by simp)]
    omega
  · rw [Double.withSign, if_pos rfl, Double.neg]
    dsimp only
    omega

/-- A text whose length is an `int` is read whole. -/
theorem fastStrtod_eq (hlen : s.length < 2 ^ 31) :
    (Int32.ofNat s.length).toInt = s.length
      ∧ fastStrtod s s.length = (stringToIeee s).map (processed s.length) := by
  refine ⟨Int32.toInt_ofNat_of_lt hlen, ?_⟩
  rw [fastStrtod, if_neg (by omega), Int.toNat_natCast, List.take_length]

theorem Written.mem {c : UInt8} (h : Written s negative whole fraction) (hc : c ∈ s) :
    c = 45 ∨ c = 46 ∨ isDigit c = true := by
  obtain ⟨hwhole, hfraction, -, tail, htail, rfl⟩ := h
  rcases List.mem_append.mp hc with hc | hc
  · cases negative
    · exact absurd hc List.not_mem_nil
    · exact Or.inl (List.mem_singleton.mp hc)
  rcases List.mem_append.mp hc with hc | hc
  · exact Or.inr (Or.inr (hwhole c hc))
  rcases htail with ⟨rfl, -⟩ | rfl
  · exact absurd hc List.not_mem_nil
  · rcases List.mem_cons.mp hc with rfl | hc
    · exact Or.inr (Or.inl rfl)
    · exact Or.inr (Or.inr (hfraction c hc))

/-- A number in digits is read as the nearest double. -/
theorem convertText_of_written (h : Written s negative whole fraction) (hlen : s.length < 2 ^ 31) :
    ∃ d : Double, convertText s = some (some (d.withSign negative))
      ∧ RoundsTo doubleAt kInfinity (partsValue whole fraction 0) d.d64 := by
  have hnul : 0 ∉ s := fun h0 => by
    rcases Written.mem h h0 with h | h | h
    · exact absurd h (by decide)
    · exact absurd h (by decide)
    · exact absurd h (by decide)
  obtain ⟨d, hread, hd⟩ := spec_stringToIeee h hlen
  obtain ⟨htotal, hstrtod⟩ := fastStrtod_eq hlen
  refine ⟨d, ?_, hd⟩
  rw [convertText, cStr_of_notMem hnul, if_pos (hasDigits_iff.mpr ⟨_, _, _, h⟩)]
  dsimp only
  rw [htotal, hstrtod, hread, Option.map_some, Option.map_some, processed]
  dsimp only
  rw [isNan_withSign hd.le_top, if_neg (by simp)]

/-- What is no number in digits is refused. -/
theorem convertText_of_not_written (hlen : s.length < 2 ^ 31)
    (h : ¬ ∃ negative whole fraction, Written s negative whole fraction) :
    convertText s = some none := by
  rw [convertText]
  split
  · rename_i hdigits
    obtain ⟨negative, whole, fraction, hwritten⟩ := hasDigits_iff.mp hdigits
    have hsplit := List.takeWhile_append_dropWhile (p := (· ≠ 0)) (l := s)
    have hstop := List.head?_dropWhile_not (· ≠ 0) s
    obtain ⟨htotal, hstrtod⟩ := fastStrtod_eq hlen
    dsimp only
    rw [htotal, hstrtod]
    rw [cStr] at hwritten
    generalize s.takeWhile (· ≠ 0) = text at *
    generalize s.dropWhile (· ≠ 0) = rest at *
    cases rest with
    | nil =>
      rw [List.append_nil] at hsplit
      exact absurd ⟨negative, whole, fraction, hsplit ▸ hwritten⟩ h
    | cons c rest =>
      -- behind a NUL the text is not what was checked
      obtain rfl : c = 0 := by simpa using hstop
      subst hsplit
      rw [stringToIeee_nul hwritten, junk, Option.map_some, Option.map_some, processed]
      dsimp only
      rw [if_pos]
      refine Or.inl (Ne.symm ?_)
      rw [List.length_append, List.length_cons]
      omega
  · rfl

/-- **Text to double**, of texts whose length is an `int`: exactly the numbers in digits are
accepted, each as the nearest double: a tie goes to the even significand, and from halfway over the
largest double on it is infinite. All others are refused. -/
theorem convertText_eq_some_iff (hlen : s.length < 2 ^ 31) :
    (convertText s).isSome ∧ ∀ v, convertText s = some (some v) ↔
      ∃ negative whole fraction, Written s negative whole fraction
        ∧ ∃ k, RoundsTo doubleAt kInfinity (partsValue whole fraction 0) k
          ∧ v = (Double.ofBits k).withSign negative := by
  by_cases hwritten : ∃ negative whole fraction, Written s negative whole fraction
  · obtain ⟨negative, whole, fraction, hwritten⟩ := hwritten
    obtain ⟨d, hread, hd⟩ := convertText_of_written hwritten hlen
    refine ⟨by rw [hread]; rfl, fun v => ⟨fun h => ?_, ?_⟩⟩
    · refine ⟨negative, whole, fraction, hwritten, d.d64, hd, ?_⟩
      rw [Double.eq_of_d64_eq (Double.d64_ofBits hd.le_top)]
      exact Option.some.inj (Option.some.inj (h.symm.trans hread))
    · rintro ⟨negative, whole, fraction, hwritten, k, hk, rfl⟩
      obtain ⟨d, hread, hd⟩ := convertText_of_written hwritten hlen
      rw [hread, RoundsTo.unique strictMono_doubleAt hk hd,
        Double.eq_of_d64_eq (Double.d64_ofBits hd.le_top)]
  · have hrefused := convertText_of_not_written hlen hwritten
    refine ⟨by rw [hrefused]; rfl, fun v => iff_of_false (fun h => ?_) ?_⟩
    · rw [hrefused] at h
      exact absurd h (by simp)
    · rintro ⟨negative, whole, fraction, h, -⟩
      exact hwritten ⟨negative, whole, fraction, h⟩

/-- A tenth, with nothing in front of the point. -/
theorem convertText_eq_some_iff_tenth :
    convertText (lit "-.10") = some (some ⟨0xBFB999999999999A, by decide⟩) ∧
      ∃ negative whole fraction, Written (lit "-.10") negative whole fraction
        ∧ ∃ k, RoundsTo doubleAt kInfinity (partsValue whole fraction 0) k
          ∧ (⟨0xBFB999999999999A, by decide⟩ : Double) = (Double.ofBits k).withSign negative := by
  have hread : convertText (lit "-.10") = some (some ⟨0xBFB999999999999A, by decide⟩) := by
    decide +kernel
  exact ⟨hread, ((convertText_eq_some_iff (show (lit "-.10").length < 2 ^ 31 by decide)).2 _).mp
    hread⟩

/-- Everything else is refused, with the text in the error. -/
theorem convertTextOrThrow_error_iff (hlen : s.length < 2 ^ 31) {e : Exception} :
    convertTextOrThrow s = some (.error e) ↔ e = fieldConvertError s
      ∧ ¬ ∃ negative whole fraction, Written s negative whole fraction := by
  rw [convertTextOrThrow]
  by_cases hwritten : ∃ negative whole fraction, Written s negative whole fraction
  · refine iff_of_false ?_ fun hno => hno.2 hwritten
    obtain ⟨negative, whole, fraction, hwritten⟩ := hwritten
    obtain ⟨d, hread, -⟩ := convertText_of_written hwritten hlen
    rw [hread]
    exact nofun
  · rw [convertText_of_not_written hlen hwritten]
    exact ⟨fun he => ⟨(Except.error.inj (Option.some.inj he)).symm, hwritten⟩, fun he => by
      rw [he.1]
      rfl⟩

end Convert

end DoubleConvertor

end S4LibLite

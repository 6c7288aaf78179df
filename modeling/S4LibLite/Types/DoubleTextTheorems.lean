import S4LibLite.Lib.Splitting
import S4LibLite.Types.DoubleText
import S4LibLite.Types.IntText
import Mathlib.Algebra.Order.Field.Basic
import Mathlib.Tactic.Positivity

/-!
# What `DoubleConvertor` prints (`s4convertors.h`)

* `trimTrailingZeros_pointed`, trimming takes the zeros at the end of the fraction;
* `fastDtoa_fixed` and `fastDtoa_exponential`, the digits around the point denote the value;
* `padded_fraction`, padding appends zeros to the text, also behind an exponent;
* `readDecimal_numText`, the parts of a text are what is read of it;
* `length_convert_le`, the text stays inside its buffer;
* `convert_prints_iff`, when the padded text denotes the value.
-/

namespace S4LibLite

open Splitting

/-! ## Trailing zeros -/

/-- The text without the zeros at its end. -/
def stripZeros (s : Bytes) : Bytes := s.rdropWhile (· == 48)

/-- The zeros there were. -/
theorem stripZeros_append (s : Bytes) :
    ∃ m, s = stripZeros s ++ List.replicate m 48 := by
  induction s using List.reverseRecOn with
  | nil => exact ⟨0, rfl⟩
  | append_singleton s c ih =>
    rw [stripZeros]
    by_cases hc : c = 48
    · subst hc
      obtain ⟨m, hm⟩ := ih
      refine ⟨m + 1, ?_⟩
      rw [List.rdropWhile_concat_pos _ _ _ rfl, ← stripZeros, List.replicate_succ',
        ← List.append_assoc, ← hm]
    · refine ⟨0, ?_⟩
      rw [List.rdropWhile_concat_neg _ _ _ (by simpa using hc), List.replicate_zero,
        List.append_nil]

theorem stripZeros_append_zeros (s : Bytes) (m : ℕ) :
    stripZeros (s ++ List.replicate m 48) = stripZeros s := by
  induction m with
  | zero => rw [List.replicate_zero, List.append_nil]
  | succ m ih =>
    rw [List.replicate_succ', ← List.append_assoc, stripZeros,
      List.rdropWhile_concat_pos _ _ _ rfl]
    exact ih

/-- Another character keeps what stands in front of it. -/
theorem stripZeros_cons {c : UInt8} (hc : c ≠ 48) (t s : Bytes) :
    stripZeros (t ++ c :: s) = t ++ c :: stripZeros s := by
  induction s using List.reverseRecOn with
  | nil => exact List.rdropWhile_concat_neg _ _ _ (by simpa using hc)
  | append_singleton s d ih =>
    rw [← List.cons_append, ← List.append_assoc, stripZeros, stripZeros]
    by_cases hd : d = 48
    · subst hd
      rw [List.rdropWhile_concat_pos _ _ _ rfl, List.rdropWhile_concat_pos _ _ _ rfl]
      exact ih
    · rw [List.rdropWhile_concat_neg _ _ _ (by simpa using hd),
        List.rdropWhile_concat_neg _ _ _ (by simpa using hd), List.append_assoc, List.cons_append]

/-- A fraction with its point. -/
def pointed (fraction : Bytes) : Bytes := if fraction = [] then [] else 46 :: fraction

/-! ## Trimming -/

/-- Where no point is left, the loop changes nothing. -/
theorem trimLoop_absent {s : Bytes} (steps dotPos : ℕ)
    (h : ∀ i, dotPos ≤ i → s[i]? ≠ some 46) : trimLoop steps dotPos s = s := by
  induction steps generalizing dotPos with
  | zero => rfl
  | succ steps ih =>
    rw [trimLoop, if_neg (h dotPos le_rfl)]
    exact ih (dotPos + 1) fun i hi => h i (by omega)

/-- It passes over what stands in front of the point. -/
theorem trimLoop_skip {whole s : Bytes} (h : 46 ∉ whole) (n steps dotPos : ℕ)
    (hn : dotPos + n = whole.length) :
    trimLoop (n + steps) dotPos (whole ++ s) = trimLoop steps whole.length (whole ++ s) := by
  induction n generalizing dotPos with
  | zero => rw [Nat.zero_add, show dotPos = whole.length by omega]
  | succ n ih =>
    have hlt : dotPos < whole.length := by omega
    rw [show n + 1 + steps = n + steps + 1 by omega, trimLoop, if_neg]
    · exact ih (dotPos + 1) (by omega)
    · rw [List.getElem?_append_left hlt]
      exact fun hpoint => h (List.mem_of_getElem? hpoint)

/-- The end of a number's text: nothing, or an exponent. -/
inductive Power : Bytes → ℕ → Prop
  | none : Power [] 0
  | digits {ds : Bytes} (hne : ds ≠ []) (hds : ∀ c ∈ ds, isDigit c = true) :
    Power (101 :: ds) (decVal ds)

theorem isPower_of_isDigit {c : UInt8} (hc : isDigit c = true) : isPower c = false := by
  rw [isDigit_iff] at hc
  rw [isPower, Bool.or_eq_false_iff, beq_eq_false_iff_ne, beq_eq_false_iff_ne]
  constructor
  · rintro rfl
    exact absurd hc.2 (by decide)
  · rintro rfl
    exact absurd hc.2 (by decide)

theorem point_notMem {s : Bytes} (h : ∀ c ∈ s, isDigit c = true) : 46 ∉ s := fun hmem =>
  absurd (h 46 hmem) (by decide)

theorem Power.notMem {power : Bytes} {exponent : ℕ} (h : Power power exponent) :
    46 ∉ power := by
  cases h with
  | none => exact List.not_mem_nil
  | digits _ hds =>
    rw [List.mem_cons]
    rintro (h | h)
    · exact absurd h (by decide)
    · exact point_notMem hds h

theorem rdropWhile_append_of_all {p : UInt8 → Bool} {s t : Bytes} (h : ∀ c ∈ t, p c = true) :
    (s ++ t).rdropWhile p = s.rdropWhile p := by
  rw [List.rdropWhile, List.reverse_append,
    List.dropWhile_append_of_pos fun c hc => h c (List.mem_reverse.mp hc), List.rdropWhile]

/-- Where the exponent begins, or the end of the text. -/
theorem powPos_eq {fraction power : Bytes} {exponent : ℕ} (dotPos n : ℕ)
    (hfraction : ∀ c ∈ fraction, isDigit c = true) (hpower : Power power exponent)
    (hn : n = dotPos + 1 + (fraction ++ power).length) :
    (if (fraction ++ power).any isPower then
      dotPos + ((fraction ++ power).rdropWhile fun c => !isPower c).length
    else n) = dotPos + 1 + fraction.length := by
  cases hpower with
  | none =>
    rw [List.append_nil] at hn ⊢
    rw [if_neg, hn]
    rw [List.any_eq_true]
    rintro ⟨c, hc, hpow⟩
    rw [isPower_of_isDigit (hfraction c hc)] at hpow
    exact Bool.noConfusion hpow
  | @digits ds _ hds =>
    -- only digits stand behind the `e`, so it is the last one
    have hany : (fraction ++ 101 :: ds).any isPower = true :=
      List.any_eq_true.mpr ⟨101, by simp, rfl⟩
    have hall : ∀ c ∈ ds, (!isPower c) = true := fun c hc => by
      rw [isPower_of_isDigit (hds c hc)]
      rfl
    rw [if_pos hany, show fraction ++ 101 :: ds = fraction ++ [101] ++ ds by simp,
      rdropWhile_append_of_all hall, List.rdropWhile_concat_neg _ _ _ (by decide),
      List.length_append, List.length_singleton]
    omega

/-- The loop's body, on the point. -/
theorem trimAt_point {whole fraction power : Bytes} {exponent : ℕ}
    (hfraction : ∀ c ∈ fraction, isDigit c = true) (hpower : Power power exponent) :
    trimAt whole.length (whole ++ 46 :: (fraction ++ power))
      = whole ++ (pointed (stripZeros fraction) ++ power) := by
  have hbehind : (whole ++ 46 :: (fraction ++ power)).drop (whole.length + 1)
      = fraction ++ power := by
    rw [← List.drop_drop, List.drop_left, List.drop_one, List.tail_cons]
  have hsplit : whole ++ 46 :: (fraction ++ power) = (whole ++ 46 :: fraction) ++ power := by
    rw [List.append_assoc, List.cons_append]
  have hlen : whole.length + 1 + fraction.length = (whole ++ 46 :: fraction).length := by
    rw [List.length_append, List.length_cons]
    omega
  rw [trimAt]
  simp only [hbehind]
  rw [powPos_eq whole.length _ hfraction hpower (by simp; omega), hlen, hsplit, List.take_left,
    List.drop_left, ← stripZeros, stripZeros_cons (by decide), ← List.append_assoc]
  congr 1
  have hpoint : 46 ∉ stripZeros fraction := fun hmem =>
    point_notMem hfraction ((List.rdropWhile_prefix _ _).subset hmem)
  -- a fraction of zeros takes the point with it
  by_cases hnil : stripZeros fraction = []
  · rw [hnil, pointed, if_pos rfl, List.getLast?_concat, if_pos rfl, List.dropLast_concat,
      List.append_nil]
  · rw [pointed, if_neg hnil, if_neg]
    rw [List.getLast?_append_of_ne_nil _ (List.cons_ne_nil _ _), List.getLast?_cons_of_ne_nil hnil]
    exact fun hlast => hpoint (List.mem_of_getLast? hlast)

/-- **Trimming** takes the zeros at the end of the fraction, and a point without a fraction. -/
theorem trimTrailingZeros_pointed {whole fraction power : Bytes} {exponent : ℕ}
    (hwhole : 46 ∉ whole) (hfraction : ∀ c ∈ fraction, isDigit c = true)
    (hpower : Power power exponent) :
    trimTrailingZeros (whole ++ (pointed fraction ++ power))
      = whole ++ (pointed (stripZeros fraction) ++ power) := by
  by_cases hnil : fraction = []
  · subst hnil
    refine trimLoop_absent _ 0 fun i _ hpoint => ?_
    have hmem := List.mem_of_getElem? hpoint
    rw [pointed, if_pos rfl, List.nil_append, List.mem_append] at hmem
    exact hmem.elim hwhole hpower.notMem
  · rw [trimTrailingZeros, pointed, if_neg hnil, List.cons_append]
    have hlen : (whole ++ 46 :: (fraction ++ power)).length
        = whole.length + ((fraction ++ power).length + 1) := by
      rw [List.length_append, List.length_cons]
    rw [hlen, trimLoop_skip hwhole _ _ 0 (Nat.zero_add _), trimLoop, if_pos (by simp),
      trimAt_point hfraction hpower]
    -- behind the first point there is no other
    refine trimLoop_absent _ _ fun i hi hpoint => ?_
    obtain ⟨j, rfl⟩ := Nat.exists_eq_add_of_le hi
    rw [List.getElem?_append_right (by omega), Nat.add_assoc, Nat.add_sub_cancel_left,
      Nat.add_comm 1 j] at hpoint
    have hstrip : 46 ∉ stripZeros fraction := fun hmem =>
      point_notMem hfraction ((List.rdropWhile_prefix _ _).subset hmem)
    rw [pointed] at hpoint
    split_ifs at hpoint with hzeros
    · exact hpower.notMem (List.mem_of_getElem? hpoint)
    · rw [List.cons_append, List.getElem?_cons_succ] at hpoint
      rcases List.mem_append.mp (List.mem_of_getElem? hpoint) with hmem | hmem
      · exact hstrip hmem
      · exact hpower.notMem hmem

/-! ## Layout -/

/-- The sign of a number's text. -/
def signText (negative : Bool) : Bytes := if negative then [45] else []

/-- A number's text by its parts. -/
def numText (negative : Bool) (whole fraction power : Bytes) : Bytes :=
  signText negative ++ whole ++ (pointed fraction ++ power)

/-- The absolute value that was given. -/
def DoubleAscii.magnitude (a : DoubleAscii) : ℚ :=
  decVal a.decimalRep * (10 : ℚ) ^ (a.decimalPoint - a.decimalRep.length)

theorem decVal_zeros (m : ℕ) : decVal (List.replicate m 48) = 0 := by
  induction m with
  | zero => rfl
  | succ m ih =>
    rw [List.replicate_succ', decVal_append_singleton, ih]
    rfl

/-- Zeros at the end of the fraction do not count. -/
theorem partsValue_append_zeros (whole fraction : Bytes) (exponent : ℤ) (m : ℕ) :
    partsValue whole (fraction ++ List.replicate m 48) exponent
      = partsValue whole fraction exponent := by
  rw [partsValue, partsValue, ← List.append_assoc, decVal_append, decVal_zeros, List.length_append,
    List.length_replicate]
  push_cast
  rw [add_zero, mul_assoc, ← zpow_natCast, ← zpow_add₀ (by norm_num)]
  congr 2
  omega

theorem partsValue_addPadding (whole : Bytes) (exponent count : ℤ) :
    partsValue whole (addPadding count) exponent = partsValue whole [] exponent :=
  partsValue_append_zeros whole [] exponent count.toNat

theorem partsValue_stripZeros (whole fraction : Bytes) (exponent : ℤ) :
    partsValue whole (stripZeros fraction) exponent = partsValue whole fraction exponent := by
  obtain ⟨m, hm⟩ := stripZeros_append fraction
  conv_rhs => rw [hm, partsValue_append_zeros]

theorem isDigit_zeros (m : ℕ) : ∀ c ∈ List.replicate m (48 : UInt8), isDigit c = true := by
  intro c hc
  rw [List.eq_of_mem_replicate hc]
  rfl

/-- A fraction of zeros, where there are any. -/
theorem pointed_addPadding (count : ℤ) :
    pointed (addPadding count) = if count > 0 then 46 :: addPadding count else [] := by
  have hnil : addPadding count = [] ↔ ¬ count > 0 := by
    rw [addPadding, List.replicate_eq_nil_iff]
    omega
  rw [pointed]
  by_cases h : count > 0
  · rw [if_neg fun hzero => hnil.mp hzero h, if_pos h]
  · rw [if_pos (hnil.mpr h), if_neg h]

/-- An exponent is printed as any number is. -/
theorem exponentLoop_eq {n : ℕ} (hn : 0 < n) (t : Bytes) :
    exponentLoop n t = fmtD0 1 n ++ t := by
  induction n using Nat.strong_induction_on generalizing t with
  | _ n ih =>
    rw [exponentLoop, if_pos hn]
    by_cases h : 9 < n
    · rw [ih (n / 10) (by omega) (by omega), fmtD0_div_ten h, List.append_assoc,
        List.singleton_append]
    · rw [exponentLoop, if_neg (by omega), fmtD0_of_le_nine (by omega), Nat.mod_eq_of_lt (by omega),
        List.singleton_append]

/-- The digits around the point of a number without an exponent. -/
structure FixedParts (a : DoubleAscii) (whole fraction : Bytes) : Prop where
  ne_nil : whole ≠ []
  isDigit_whole : ∀ c ∈ whole, isDigit c = true
  isDigit_fraction : ∀ c ∈ fraction, isDigit c = true
  value : partsValue whole fraction 0 = a.magnitude
  whole_le : whole.length ≤ 15
  length_le : whole.length + fraction.length ≤ 19

section Layouts

variable {a : DoubleAscii} {m : ℕ} (count : ℤ)

/-- Zeros between the point and the digits. -/
theorem fixedParts_low (hm : a.decimalPoint = -(m : ℤ))
    (hcount : m + a.decimalRep.length + count.toNat ≤ 18) :
    FixedParts a [48] (List.replicate m 48 ++ a.decimalRep ++ addPadding count) where
  ne_nil := List.cons_ne_nil _ _
  isDigit_whole := List.all_eq_true.mp rfl
  isDigit_fraction := List.forall_mem_append.mpr
    ⟨List.forall_mem_append.mpr ⟨isDigit_zeros m, a.isDigit_rep⟩, isDigit_zeros _⟩
  value := by
    have hzeros : [48] ++ List.replicate m 48 = List.replicate (m + 1) (48 : UInt8) := rfl
    rw [addPadding, partsValue_append_zeros, partsValue, ← List.append_assoc, hzeros,
      decVal_append, decVal_zeros, zero_mul, zero_add, List.length_append, List.length_replicate,
      DoubleAscii.magnitude, hm]
    push_cast
    ring_nf
  whole_le := by decide
  length_le := by
    simp only [addPadding, List.length_append, List.length_replicate, List.length_singleton]
    omega

/-- Zeros behind the digits. -/
theorem fixedParts_high (hlen : (a.decimalRep.length : ℤ) ≤ a.decimalPoint)
    (hpoint : a.decimalPoint ≤ 15) (hcount : a.decimalPoint + count.toNat ≤ 19) :
    FixedParts a (a.decimalRep ++ addPadding (a.decimalPoint - a.decimalRep.length))
      (addPadding count) where
  ne_nil := List.append_ne_nil_of_left_ne_nil a.rep_ne_nil _
  isDigit_whole := List.forall_mem_append.mpr ⟨a.isDigit_rep, isDigit_zeros _⟩
  isDigit_fraction := isDigit_zeros _
  value := by
    -- the zeros multiply the digits by a power of ten
    have hzeros : (((a.decimalPoint - a.decimalRep.length).toNat : ℕ) : ℤ)
        = a.decimalPoint - a.decimalRep.length := Int.toNat_of_nonneg (by omega)
    rw [partsValue_addPadding, partsValue, List.append_nil, addPadding, decVal_append,
      decVal_zeros, add_zero, List.length_replicate, List.length_nil, DoubleAscii.magnitude]
    push_cast
    rw [← zpow_natCast, hzeros, mul_one]
  whole_le := by
    rw [addPadding, List.length_append, List.length_replicate]
    omega
  length_le := by
    simp only [addPadding, List.length_append, List.length_replicate]
    omega

/-- The point among the digits. -/
theorem fixedParts_inside (hm : a.decimalPoint = m) (hpos : 0 < m)
    (hlt : m < a.decimalRep.length) (hcount : a.decimalRep.length + count.toNat ≤ 19) :
    FixedParts a (a.decimalRep.take m) (a.decimalRep.drop m ++ addPadding count) where
  ne_nil := List.ne_nil_of_length_pos (by rw [List.length_take]; omega)
  isDigit_whole := fun c hc => a.isDigit_rep c (List.mem_of_mem_take hc)
  isDigit_fraction := List.forall_mem_append.mpr
    ⟨fun c hc => a.isDigit_rep c (List.mem_of_mem_drop hc), isDigit_zeros _⟩
  value := by
    rw [addPadding, partsValue_append_zeros, partsValue, List.take_append_drop, List.length_drop,
      Nat.cast_sub hlt.le, DoubleAscii.magnitude, hm]
    ring_nf
  whole_le := by
    have hlen := a.length_le
    rw [significantDigits] at hlen
    rw [List.length_take]
    omega
  length_le := by
    simp only [addPadding, List.length_append, List.length_replicate, List.length_take,
      List.length_drop]
    omega

end Layouts

/-- **The fixed layout**: up to fifteen digits in front of the point. -/
theorem createDecimalRepresentation_eq (a : DoubleAscii) (hpoint : a.decimalPoint ≤ 15) :
    ∃ whole fraction : Bytes, FixedParts a whole fraction ∧ createDecimalRepresentation
      a.decimalRep a.decimalPoint (max 0 (significantDigits - a.decimalPoint))
        = whole ++ pointed fraction := by
  have hlen := a.length_le
  have hge := a.point_ge
  rw [significantDigits] at hlen
  have hmax : max 0 ((significantDigits : ℤ) - a.decimalPoint) = 15 - a.decimalPoint := by
    rw [significantDigits]
    omega
  rw [hmax, createDecimalRepresentation]
  rcases le_or_gt a.decimalPoint 0 with hlow | hpos
  · obtain ⟨m, hm⟩ : ∃ m : ℕ, a.decimalPoint = -m := ⟨(-a.decimalPoint).toNat, by omega⟩
    have hparts := fixedParts_low (15 - a.decimalPoint - -a.decimalPoint
      - a.decimalRep.length) hm (by omega)
    refine ⟨_, _, hparts, ?_⟩
    have hne : List.replicate m 48 ++ a.decimalRep ++ addPadding (15 - a.decimalPoint
        - -a.decimalPoint - a.decimalRep.length) ≠ [] := by simp [a.rep_ne_nil]
    rw [if_pos hlow, if_pos (by omega), pointed, if_neg hne, hm, addPadding, neg_neg,
      Int.toNat_natCast]
    rfl
  · rw [if_neg (by omega)]
    rcases le_or_gt (a.decimalRep.length : ℤ) a.decimalPoint with hhigh | hin
    · refine ⟨_, _, fixedParts_high (15 - a.decimalPoint) hhigh hpoint (by omega), ?_⟩
      rw [if_pos hhigh, pointed_addPadding]
    · obtain ⟨m, hm⟩ : ∃ m : ℕ, a.decimalPoint = m := ⟨a.decimalPoint.toNat, by omega⟩
      refine ⟨_, _, fixedParts_inside (15 - a.decimalPoint
        - (a.decimalRep.length - a.decimalPoint)) hm (by omega) (by omega) (by omega), ?_⟩
      have hne : a.decimalRep.drop m ++ addPadding (15 - a.decimalPoint
          - (a.decimalRep.length - a.decimalPoint)) ≠ [] := by
        simp
        omega
      rw [if_neg (by omega), pointed, if_neg hne, hm, Int.toNat_natCast]

/-- The exponent's text. -/
def powerText (exponent : ℕ) : Bytes := 101 :: fmtD0 1 exponent

theorem power_powerText (exponent : ℕ) : Power (powerText exponent) exponent := by
  have hpower := Power.digits (fmtD0_ne_nil Nat.one_pos exponent) fun c hc =>
    isDigit_of_mem_fmtD0 hc
  rwa [decVal_fmtD0] at hpower

/-- The digits behind the first one. -/
def DoubleAscii.behindFirst (a : DoubleAscii) : Bytes := stripZeros a.decimalRep.tail

/-- **The exponential layout**: one digit in front of the point. -/
theorem createExponentialRepresentation_eq (a : DoubleAscii) (hpoint : 15 < a.decimalPoint) :
    ∃ d zeros, a.decimalRep = d :: a.decimalRep.tail ∧
      createExponentialRepresentation
        (a.decimalRep ++ List.replicate (significantDigits - a.decimalRep.length) 48)
        (a.decimalPoint - 1)
      = [d] ++ (pointed (a.decimalRep.tail ++ List.replicate zeros 48)
        ++ powerText (a.decimalPoint - 1).toNat) := by
  obtain ⟨d, rest, hrep⟩ := List.exists_cons_of_ne_nil a.rep_ne_nil
  have hlen := a.length_le
  rw [hrep, significantDigits, List.length_cons] at hlen
  refine ⟨d, significantDigits - a.decimalRep.length, by rw [hrep]; rfl, ?_⟩
  -- the digits are filled up with zeros to fifteen
  have hfull : (rest ++ List.replicate (15 - (rest.length + 1)) (48 : UInt8)).length = 14 := by
    rw [List.length_append, List.length_replicate]
    omega
  have hne : rest ++ List.replicate (15 - (rest.length + 1)) (48 : UInt8) ≠ [] :=
    List.ne_nil_of_length_pos (hfull ▸ by norm_num)
  have hlong :
      (d :: (rest ++ List.replicate (15 - (rest.length + 1)) (48 : UInt8))).length ≠ 1 := by
    rw [List.length_cons, hfull]
    norm_num
  have hpositive : ¬ a.decimalPoint - 1 < 0 := by omega
  have hnonzero : a.decimalPoint - 1 ≠ 0 := by omega
  have habs : (a.decimalPoint - 1).natAbs = (a.decimalPoint - 1).toNat := by omega
  rw [hrep, createExponentialRepresentation, significantDigits, List.length_cons, List.tail_cons,
    List.cons_append, if_pos hlong, if_neg hpositive, if_neg hnonzero, pointed, if_neg hne,
    exponentLoop_eq (by omega), List.append_nil, powerText, habs]
  simp

/-- The value of the digits around a point behind the first one. -/
theorem partsValue_behindFirst {a : DoubleAscii} {d : UInt8}
    (hrep : a.decimalRep = d :: a.decimalRep.tail) :
    partsValue [d] a.behindFirst (a.decimalPoint - 1) = a.magnitude := by
  have hlen := congrArg List.length hrep
  rw [List.length_cons] at hlen
  rw [DoubleAscii.behindFirst, partsValue_stripZeros, partsValue, List.singleton_append, ← hrep,
    DoubleAscii.magnitude, hlen]
  push_cast
  ring_nf

/-! ## What `fast_dtoa` leaves -/

theorem isDigit_stripZeros {s : Bytes} (h : ∀ c ∈ s, isDigit c = true) :
    ∀ c ∈ stripZeros s, isDigit c = true := fun c hc =>
  h c ((List.rdropWhile_prefix _ _).subset hc)

theorem point_notMem_signText (negative : Bool) : 46 ∉ signText negative := by
  cases negative <;> decide

/-- Trimming a laid out number. -/
theorem trimTrailingZeros_numText {negative : Bool} {whole fraction power : Bytes} {exponent : ℕ}
    (hwhole : ∀ c ∈ whole, isDigit c = true) (hfraction : ∀ c ∈ fraction, isDigit c = true)
    (hpower : Power power exponent) :
    trimTrailingZeros (numText negative whole fraction power)
      = numText negative whole (stripZeros fraction) power := by
  refine trimTrailingZeros_pointed (fun hmem => ?_) hfraction hpower
  rcases List.mem_append.mp hmem with hmem | hmem
  · exact point_notMem_signText negative hmem
  · exact point_notMem hwhole hmem

theorem length_stripZeros_le (s : Bytes) : (stripZeros s).length ≤ s.length :=
  (List.rdropWhile_prefix _ _).length_le

theorem FixedParts.strip {a : DoubleAscii} {whole fraction : Bytes}
    (h : FixedParts a whole fraction) : FixedParts a whole (stripZeros fraction) where
  ne_nil := h.ne_nil
  isDigit_whole := h.isDigit_whole
  isDigit_fraction := isDigit_stripZeros h.isDigit_fraction
  value := by rw [partsValue_stripZeros, h.value]
  whole_le := h.whole_le
  length_le := (Nat.add_le_add_left (length_stripZeros_le fraction) _).trans h.length_le

/-- **Up to fifteen digits in front of the point.** -/
theorem fastDtoa_fixed {a : DoubleAscii} (hpoint : a.decimalPoint ≤ 15) :
    ∃ whole fraction : Bytes, FixedParts a whole fraction ∧
      fastDtoa a = numText a.sign whole fraction [] := by
  obtain ⟨whole, fraction, hparts, hlayout⟩ := createDecimalRepresentation_eq a hpoint
  have hlow := a.point_ge
  refine ⟨whole, stripZeros fraction, hparts.strip, ?_⟩
  have hfixed : ¬ (-a.decimalPoint + 1 > (significantDigits : ℤ) - 1
      ∨ a.decimalPoint - (significantDigits : ℤ) > 0) := by
    rw [significantDigits]
    omega
  rw [← trimTrailingZeros_numText hparts.isDigit_whole hparts.isDigit_fraction .none, fastDtoa,
    toPrecision, hlayout, if_neg hfixed, numText, signText, List.append_nil, List.append_assoc]

/-- The digits around the point of a number with an exponent, and its text. -/
structure ExponentParts (a : DoubleAscii) (d : UInt8) : Prop where
  rep : a.decimalRep = d :: a.decimalRep.tail
  isDigit_whole : ∀ c ∈ [d], isDigit c = true
  isDigit_fraction : ∀ c ∈ a.behindFirst, isDigit c = true
  value : partsValue [d] a.behindFirst ((a.decimalPoint - 1).toNat : ℕ) = a.magnitude
  text : fastDtoa a = numText a.sign [d] a.behindFirst (powerText (a.decimalPoint - 1).toNat)

/-- **More than fifteen.** -/
theorem fastDtoa_exponential {a : DoubleAscii} (hpoint : 15 < a.decimalPoint) :
    ∃ d, ExponentParts a d := by
  obtain ⟨d, zeros, hrep, hlayout⟩ := createExponentialRepresentation_eq a hpoint
  have hd : ∀ c ∈ [d], isDigit c = true :=
    List.forall_mem_singleton.mpr (a.isDigit_rep d (hrep ▸ List.mem_cons_self))
  have htail : ∀ c ∈ a.decimalRep.tail, isDigit c = true := fun c hc =>
    a.isDigit_rep c (List.mem_of_mem_tail hc)
  have hexponential : -a.decimalPoint + 1 > (significantDigits : ℤ) - 1
      ∨ a.decimalPoint - (significantDigits : ℤ) > 0 := by
    rw [significantDigits]
    omega
  have hcast : ((a.decimalPoint - 1).toNat : ℤ) = a.decimalPoint - 1 := by omega
  refine ⟨d, hrep, hd, isDigit_stripZeros htail, ?_, ?_⟩
  · rw [hcast, partsValue_behindFirst hrep]
  · rw [DoubleAscii.behindFirst, ← stripZeros_append_zeros _ zeros,
      ← trimTrailingZeros_numText hd (List.forall_mem_append.mpr ⟨htail, isDigit_zeros zeros⟩)
        (power_powerText _),
      fastDtoa, toPrecision, hlayout, if_pos hexponential, numText, signText, List.append_assoc]

/-- `DoubleToAscii` does not begin with a zero. -/
theorem ExponentParts.first_ne_zero {a : DoubleAscii} {d : UInt8} (h : ExponentParts a d) :
    d ≠ 48 := by
  rintro rfl
  exact a.first_ne_zero (h.rep ▸ rfl)

/-! ## Padding -/

theorem point_notMem_whole {whole : Bytes} (negative : Bool)
    (h : ∀ c ∈ whole, isDigit c = true) : 46 ∉ signText negative ++ whole := by
  intro hmem
  rcases List.mem_append.mp hmem with hmem | hmem
  · exact point_notMem_signText negative hmem
  · exact point_notMem h hmem

/-- What padding appends where there is a fraction; the exponent counts for it. -/
theorem padded_fraction {negative : Bool} {whole fraction : Bytes} (power : Bytes)
    (padding : ℤ) (hwhole : ∀ c ∈ whole, isDigit c = true) (hne : fraction ≠ []) :
    padded padding (numText negative whole fraction power)
      = numText negative whole fraction power
        ++ List.replicate (padding - (fraction.length + power.length)).toNat 48 := by
  have htext : numText negative whole fraction power
      = (signText negative ++ whole) ++ (46 :: (fraction ++ power)) := by
    rw [numText, pointed, if_neg hne, List.cons_append]
  have hpoint := before_cut (point_notMem_whole negative hwhole) (fraction ++ power)
  rw [before] at hpoint
  have hlen : (numText negative whole fraction power).length
      = (signText negative ++ whole).length + (fraction.length + power.length + 1) := by
    have htail : (fraction ++ power).length = fraction.length + power.length :=
      List.length_append
    rw [htext, List.length_append, List.length_cons, htail]
  rw [padded]
  simp only [hlen]
  rw [htext, hpoint, if_neg (by omega), if_neg (by omega)]
  congr 3
  push_cast
  omega

/-- Where there is none, a point and the zeros. -/
theorem padded_nil {negative : Bool} {whole power : Bytes} {exponent : ℕ} (padding : ℤ)
    (hwhole : ∀ c ∈ whole, isDigit c = true) (hpower : Power power exponent) :
    padded padding (numText negative whole [] power)
      = numText negative whole [] power ++ 46 :: List.replicate padding.toNat 48 := by
  have habsent : 46 ∉ numText negative whole [] power := by
    intro hmem
    rcases List.mem_append.mp hmem with hmem | hmem
    · exact point_notMem_whole negative hwhole hmem
    · exact hpower.notMem hmem
  have hpoint := before_of_notMem habsent
  rw [before] at hpoint
  rw [padded]
  simp only [hpoint, if_true]
  rw [Int.sub_self, Int.sub_zero, List.append_assoc, List.singleton_append]

/-! ## Reading -/

theorem Power.read {power : Bytes} {exponent : ℕ} (h : Power power exponent) :
    readExponent power = some (exponent : ℤ) := by
  cases h with
  | none => rfl
  | @digits ds hne hds =>
    obtain ⟨c, t, rfl⟩ := List.exists_cons_of_ne_nil hne
    have hsign := strtolSign_of_isDigit (s := t) (hds c List.mem_cons_self)
    rw [readExponent]
    simp only [hsign]
    rw [if_pos ⟨rfl, hne, List.all_eq_true.mpr hds⟩]
    rfl

theorem Power.head?_not_digit {power : Bytes} {exponent : ℕ} (h : Power power exponent) :
    ∀ c ∈ power.head?, isDigit c = false := by
  cases h with
  | none => simp
  | digits => simp [isDigit]

/-- The sign and the digits in front of the point. -/
theorem readDecimal_whole {negative : Bool} {whole rest : Bytes} (hne : whole ≠ [])
    (hwhole : ∀ c ∈ whole, isDigit c = true) (hrest : ∀ c ∈ rest.head?, isDigit c = false) :
    readDecimal (signText negative ++ whole ++ rest)
      = let pointed := decide (rest.head? = some 46)
        (readExponent (if pointed then rest.tail.dropWhile isDigit else rest)).map fun exponent =>
          ⟨negative, whole, if pointed then rest.tail.takeWhile isDigit else [], exponent⟩ := by
  have hnegative : decide ((signText negative ++ whole ++ rest).head? = some 45) = negative := by
    obtain ⟨c, t, rfl⟩ := List.exists_cons_of_ne_nil hne
    have hc : c ≠ 45 := by
      rintro rfl
      exact absurd (hwhole 45 List.mem_cons_self) (by decide)
    cases negative <;> simp [signText, hc]
  have htail : (if negative = true then (signText negative ++ whole ++ rest).tail
      else signText negative ++ whole ++ rest) = whole ++ rest := by
    cases negative <;> simp [signText]
  rw [readDecimal]
  simp only [hnegative, htail, takeWhile_run hwhole hrest, dropWhile_run hwhole hrest, if_neg hne]

/-- **The parts of a text are what is read of it.** -/
theorem readDecimal_numText {negative : Bool} {whole fraction power : Bytes} {exponent : ℕ}
    (hne : whole ≠ []) (hwhole : ∀ c ∈ whole, isDigit c = true)
    (hfraction : ∀ c ∈ fraction, isDigit c = true) (hpower : Power power exponent) :
    readDecimal (numText negative whole fraction power)
      = some ⟨negative, whole, fraction, exponent⟩ := by
  have hstop := hpower.head?_not_digit
  by_cases hnil : fraction = []
  · have hnopoint : power.head? ≠ some 46 := fun hpoint =>
      hpower.notMem (List.mem_of_head? hpoint)
    rw [hnil, numText, pointed, if_pos rfl, List.nil_append, readDecimal_whole hne hwhole hstop]
    simp only [hnopoint, decide_false, if_false, Bool.false_eq_true, hpower.read, Option.map_some]
  · rw [numText, pointed, if_neg hnil, List.cons_append,
      readDecimal_whole hne hwhole (by simp [isDigit])]
    simp only [List.head?_cons, decide_true, if_true, List.tail_cons,
      takeWhile_run hfraction hstop, dropWhile_run hfraction hstop, hpower.read, Option.map_some]

/-- A point behind an exponent is no number. -/
theorem readDecimal_point {negative : Bool} {whole : Bytes} (hne : whole ≠ [])
    (hwhole : ∀ c ∈ whole, isDigit c = true) (exponent : ℕ) (zeros : Bytes) :
    readDecimal (numText negative whole [] (powerText exponent) ++ 46 :: zeros) = none := by
  obtain ⟨c, t, hdigits⟩ := List.exists_cons_of_ne_nil (fmtD0_ne_nil Nat.one_pos exponent)
  have hc : isDigit c = true := by
    refine isDigit_of_mem_fmtD0 (w := 1) (n := exponent) ?_
    rw [hdigits]
    exact List.mem_cons_self
  have hsign := strtolSign_of_isDigit (s := t ++ 46 :: zeros) hc
  have hexponent : readExponent (powerText exponent ++ 46 :: zeros) = none := by
    rw [powerText, hdigits, List.cons_append, List.cons_append, readExponent]
    simp only [hsign]
    rw [if_neg]
    rintro ⟨-, -, hall⟩
    have hpoint := List.all_eq_true.mp hall 46 (by simp)
    exact absurd hpoint (by decide)
  rw [numText, pointed, if_pos rfl, List.nil_append, List.append_assoc _ (powerText exponent),
    readDecimal_whole hne hwhole (by simp [powerText, isDigit])]
  have hnopoint : (powerText exponent ++ 46 :: zeros).head? ≠ some 46 := by simp [powerText]
  simp only [hnopoint, decide_false, if_false, Bool.false_eq_true, hexponent, Option.map_none]

/-! ## The function -/

/-- What printing should do: the text denotes the value, and padding adds zeros at the end of the
fraction. -/
structure PrintsExactly (a : DoubleAscii) (padding : ℤ) : Prop where
  value : ((DoubleConvertor.convert a padding).bind readDecimal).map DecimalText.value
    = some a.value
  padded : ∃ n zeros, (DoubleConvertor.convert a 0).bind readDecimal = some n ∧
    (DoubleConvertor.convert a padding).bind readDecimal
      = some { n with fraction := n.fraction ++ List.replicate zeros 48 }

/-- The number of digits up to the last one that is not zero. -/
def DoubleAscii.significant (a : DoubleAscii) : ℕ := (stripZeros a.decimalRep).length

/-- The number of digits of the exponent. -/
def DoubleAscii.exponentDigits (a : DoubleAscii) : ℕ := if a.decimalPoint ≤ 100 then 2 else 3

theorem value_eq (a : DoubleAscii) {whole fraction : Bytes} {exponent : ℤ}
    (h : partsValue whole fraction exponent = a.magnitude) :
    DecimalText.value ⟨a.sign, whole, fraction, exponent⟩ = a.value := by
  rw [DecimalText.value, DoubleAscii.value, h, DoubleAscii.magnitude]

theorem numText_ne_nil {negative : Bool} {whole fraction power : Bytes} (hne : whole ≠ []) :
    numText negative whole fraction power ≠ [] := by
  rw [numText]
  simp [hne]

/-! ## The buffer -/

theorem length_numText (negative : Bool) (whole fraction power : Bytes) :
    (numText negative whole fraction power).length
      = (signText negative).length + whole.length + (pointed fraction).length + power.length := by
  rw [numText, List.length_append, List.length_append, List.length_append, ← Nat.add_assoc]

theorem length_signText_le (negative : Bool) : (signText negative).length ≤ 1 := by
  cases negative <;> decide

/-- Up to fifteen zeros stay inside the buffer. -/
theorem length_padded_le {negative : Bool} {whole fraction power : Bytes} {exponent : ℕ}
    {padding : ℤ} (hwhole : ∀ c ∈ whole, isDigit c = true) (hpower : Power power exponent)
    (hpadding : padding ≤ 15) (hends : whole.length + power.length ≤ 15)
    (hlen : whole.length + fraction.length + power.length ≤ 19) :
    (if padding > 0 then padded padding (numText negative whole fraction power)
      else numText negative whole fraction power).length ≤ bufferSize := by
  have hsign := length_signText_le negative
  have htext := length_numText negative whole fraction power
  rw [bufferSize]
  -- a point is added where there is none
  by_cases hnil : fraction = []
  · rw [hnil, pointed, if_pos rfl, List.length_nil] at htext
    rw [hnil]
    split_ifs
    · rw [padded_nil padding hwhole hpower, List.length_append, htext, List.length_cons,
        List.length_replicate]
      omega
    · omega
  · rw [pointed, if_neg hnil, List.length_cons] at htext
    split_ifs
    · rw [padded_fraction power padding hwhole hnil, List.length_append, htext,
        List.length_replicate]
      omega
    · omega

/-- Two digits, or three. -/
theorem length_powerText {a : DoubleAscii} (hpoint : 15 < a.decimalPoint) :
    (powerText (a.decimalPoint - 1).toNat).length = a.exponentDigits + 1 := by
  have hhigh := a.point_le
  rw [powerText, List.length_cons, DoubleAscii.exponentDigits, fmtD0_div_ten (by omega),
    List.length_append, List.length_singleton]
  split_ifs
  · rw [fmtD0_of_le_nine (by omega), List.length_singleton]
  · rw [fmtD0_div_ten (by omega), fmtD0_of_le_nine (by omega), List.length_append,
      List.length_singleton, List.length_singleton]

/-- **The text fits into its buffer**, for paddings up to fifteen. -/
theorem length_convert_le (a : DoubleAscii) {padding : ℤ} (hpadding : padding ≤ 15) :
    fastDtoa a ≠ [] ∧ (if padding > 0 then padded padding (fastDtoa a)
      else fastDtoa a).length ≤ bufferSize := by
  rcases le_or_gt a.decimalPoint 15 with hpoint | hpoint
  · obtain ⟨whole, fraction, hparts, htext⟩ := fastDtoa_fixed hpoint
    rw [htext]
    exact ⟨numText_ne_nil hparts.ne_nil,
      length_padded_le hparts.isDigit_whole .none hpadding hparts.whole_le hparts.length_le⟩
  · obtain ⟨d, hparts⟩ := fastDtoa_exponential hpoint
    have hbehind : a.behindFirst.length + 1 ≤ 15 := by
      have hrest := length_stripZeros_le a.decimalRep.tail
      have hlen := a.length_le
      rw [hparts.rep, List.length_cons, significantDigits] at hlen
      exact (Nat.succ_le_succ hrest).trans hlen
    have hpower : (powerText (a.decimalPoint - 1).toNat).length ≤ 4 := by
      rw [length_powerText hpoint, DoubleAscii.exponentDigits]
      split_ifs <;> norm_num
    rw [hparts.text]
    refine ⟨numText_ne_nil (List.cons_ne_nil d []),
      length_padded_le hparts.isDigit_whole (power_powerText _) hpadding ?_ ?_⟩
    · rw [List.length_singleton]
      omega
    · rw [List.length_singleton]
      omega

theorem padZeros_of_length_le {padding : ℤ} {s : Bytes}
    (h : (padded padding s).length ≤ bufferSize) : padZeros padding s = some (padded padding s) :=
  if_pos h

/-- Whatever comes out is the padded text. -/
theorem eq_of_padZeros {padding : ℤ} {s text : Bytes} (h : padZeros padding s = some text) :
    text = padded padding s :=
  (Option.some.inj (Option.ite_none_right_eq_some.mp h).2).symm

theorem convert_eq (a : DoubleAscii) {padding : ℤ} (hpadding : padding ≤ 15) :
    DoubleConvertor.convert a padding
      = some (if padding > 0 then padded padding (fastDtoa a) else fastDtoa a) := by
  obtain ⟨hne, hlen⟩ := length_convert_le a hpadding
  rw [DoubleConvertor.convert, if_neg hne]
  by_cases hpos : padding > 0
  · rw [if_pos hpos] at hlen ⊢
    rw [if_pos hpos, padZeros_of_length_le hlen]
  · rw [if_neg hpos, if_neg hpos]

/-! ## Texts without an exponent -/

/-- Zeros at the end of the fraction are what padding may add. -/
theorem printsExactly_of_zeros {a : DoubleAscii} {whole fraction power : Bytes} {exponent : ℕ}
    {padding : ℤ} (hne : whole ≠ []) (hwhole : ∀ c ∈ whole, isDigit c = true)
    (hfraction : ∀ c ∈ fraction, isDigit c = true) (hpower : Power power exponent)
    (hvalue : partsValue whole fraction exponent = a.magnitude)
    (htext : DoubleConvertor.convert a 0 = some (numText a.sign whole fraction power)) (m : ℕ)
    (hpadded : DoubleConvertor.convert a padding
      = some (numText a.sign whole (fraction ++ List.replicate m 48) power)) :
    PrintsExactly a padding := by
  have hzeros : ∀ c ∈ fraction ++ List.replicate m 48, isDigit c = true :=
    List.forall_mem_append.mpr ⟨hfraction, isDigit_zeros m⟩
  have hread : readDecimal (numText a.sign whole (fraction ++ List.replicate m 48) power)
      = some ⟨a.sign, whole, fraction ++ List.replicate m 48, exponent⟩ :=
    readDecimal_numText hne hwhole hzeros hpower
  refine ⟨?_, ⟨a.sign, whole, fraction, exponent⟩, m, ?_, ?_⟩
  · rw [hpadded, Option.bind_some, hread, Option.map_some, value_eq a]
    rw [partsValue_append_zeros, hvalue]
  · rw [htext, Option.bind_some]
    exact readDecimal_numText hne hwhole hfraction hpower
  · rw [hpadded, Option.bind_some, hread]

/-- Without an exponent, padding is at the end of the fraction. -/
theorem padded_fixed (negative : Bool) {whole : Bytes} (fraction : Bytes) {padding : ℤ}
    (hwhole : ∀ c ∈ whole, isDigit c = true) (hpos : padding > 0) :
    ∃ m, padded padding (numText negative whole fraction [])
      = numText negative whole (fraction ++ List.replicate m 48) [] := by
  by_cases hnil : fraction = []
  · subst hnil
    refine ⟨padding.toNat, ?_⟩
    have hne : List.replicate padding.toNat (48 : UInt8) ≠ [] := by
      rw [ne_eq, List.replicate_eq_nil_iff]
      omega
    rw [padded_nil padding hwhole .none, List.nil_append, numText, numText, pointed, pointed,
      if_pos rfl, if_neg hne, List.append_nil, List.append_nil, List.append_nil]
  · refine ⟨(padding - (fraction.length + ([] : Bytes).length)).toNat, ?_⟩
    rw [padded_fraction [] padding hwhole hnil, numText, numText, pointed, pointed,
      if_neg hnil, if_neg (by simp [hnil]), List.append_nil, List.append_nil, List.append_assoc,
      List.cons_append]

/-- **Numbers in the fixed layout** are printed exactly. -/
theorem printsExactly_fixed {a : DoubleAscii} (hpoint : a.decimalPoint ≤ 15) {padding : ℤ}
    (hpadding : padding ≤ 15) : PrintsExactly a padding := by
  obtain ⟨whole, fraction, hparts, htext⟩ := fastDtoa_fixed hpoint
  obtain ⟨hne, hwhole, hfraction, hvalue, -, -⟩ := hparts
  have hconvert := convert_eq a hpadding
  have hzero : DoubleConvertor.convert a 0 = some (numText a.sign whole fraction []) := by
    rw [convert_eq a (by decide), if_neg (by decide), htext]
  by_cases hpos : padding > 0
  · obtain ⟨m, hm⟩ := padded_fixed a.sign fraction hwhole hpos
    refine printsExactly_of_zeros hne hwhole hfraction .none hvalue hzero m ?_
    rw [hconvert, if_pos hpos, htext, hm]
  · refine printsExactly_of_zeros hne hwhole hfraction .none hvalue hzero 0 ?_
    rw [hconvert, if_neg hpos, htext, List.replicate_zero, List.append_nil]

/-! ## Texts with an exponent -/

theorem numText_append_power (negative : Bool) (whole fraction power t : Bytes) :
    numText negative whole fraction power ++ t = numText negative whole fraction (power ++ t) := by
  rw [numText, numText, List.append_assoc, List.append_assoc (pointed fraction)]

/-- Where there is no exponent, or no padding, the text denotes the value. -/
theorem readDecimal_padded {a : DoubleAscii} {padding : ℤ}
    (h : a.decimalPoint ≤ 15 ∨ padding ≤ 0) :
    (readDecimal (if padding > 0 then padded padding (fastDtoa a) else fastDtoa a)).map
      DecimalText.value = some a.value := by
  by_cases hpoint : a.decimalPoint ≤ 15
  · obtain ⟨whole, fraction, hparts, htext⟩ := fastDtoa_fixed hpoint
    obtain ⟨hne, hwhole, hfraction, hvalue, -, -⟩ := hparts
    obtain ⟨m, hm⟩ : ∃ m, (if padding > 0 then padded padding (fastDtoa a) else fastDtoa a)
        = numText a.sign whole (fraction ++ List.replicate m 48) [] := by
      rw [htext]
      split
      · exact padded_fixed a.sign fraction hwhole (by assumption)
      · exact ⟨0, by rw [List.replicate_zero, List.append_nil]⟩
    rw [hm, readDecimal_numText hne hwhole
      (List.forall_mem_append.mpr ⟨hfraction, isDigit_zeros m⟩) .none, Option.map_some, value_eq a]
    rw [partsValue_append_zeros]
    exact hvalue
  · obtain ⟨d, hparts⟩ := fastDtoa_exponential (not_le.mp hpoint)
    rw [if_neg (not_lt.mpr (h.resolve_left hpoint)), hparts.text,
      readDecimal_numText (List.cons_ne_nil d []) hparts.isDigit_whole hparts.isDigit_fraction
        (power_powerText _), Option.map_some, value_eq a hparts.value]

theorem ExponentParts.significant_eq {a : DoubleAscii} {d : UInt8} (h : ExponentParts a d) :
    a.significant = a.behindFirst.length + 1 := by
  have hstrip := stripZeros_cons h.first_ne_zero [] a.decimalRep.tail
  rw [List.nil_append, List.nil_append, ← h.rep] at hstrip
  rw [DoubleAscii.significant, hstrip, List.length_cons, DoubleAscii.behindFirst]

/-- Zeros behind an exponent make it larger. -/
theorem power_zeros (exponent z : ℕ) :
    Power (powerText exponent ++ List.replicate z 48) (exponent * 10 ^ z) := by
  have hdigits : ∀ c ∈ fmtD0 1 exponent ++ List.replicate z 48, isDigit c = true :=
    List.forall_mem_append.mpr ⟨fun c hc => isDigit_of_mem_fmtD0 hc, isDigit_zeros z⟩
  have hpower := Power.digits
    (List.append_ne_nil_of_left_ne_nil (fmtD0_ne_nil Nat.one_pos exponent) _) hdigits
  rwa [decVal_append, decVal_fmtD0, decVal_zeros, List.length_replicate, Nat.add_zero] at hpower

/-- A number with another exponent. -/
theorem value_inj_exponent {negative : Bool} {whole fraction : Bytes} {e e' : ℕ}
    (hne : decVal (whole ++ fraction) ≠ 0)
    (h : DecimalText.value ⟨negative, whole, fraction, e⟩
      = DecimalText.value ⟨negative, whole, fraction, e'⟩) : e = e' := by
  have hsign : (if negative = true then (-1 : ℚ) else 1) ≠ 0 := by
    split_ifs <;> norm_num
  have hparts := mul_left_cancel₀ hsign h
  have hpow := mul_left_cancel₀ (Nat.cast_ne_zero.mpr hne) hparts
  have hinj : (e : ℤ) - fraction.length = (e' : ℤ) - fraction.length :=
    zpow_right_injective₀ (by norm_num) (by norm_num) hpow
  omega

theorem decVal_cons_ne_zero {d : UInt8} (hd : isDigit d = true) (hne : d ≠ 48) (s : Bytes) :
    decVal (d :: s) ≠ 0 := by
  have hpos : digitVal d ≠ 0 := by
    rw [isDigit_iff] at hd
    rw [digitVal]
    intro hzero
    exact hne (UInt8.toNat_inj.mp (show d.toNat = 48 by omega))
  rw [decVal_cons]
  positivity

section Exponent

variable {a : DoubleAscii} {d : UInt8} {padding : ℤ}

theorem ExponentParts.convert_text (h : ExponentParts a d) (hpadding : padding ≤ 15) :
    DoubleConvertor.convert a padding = some (if padding > 0 then padded padding (fastDtoa a)
      else numText a.sign [d] a.behindFirst (powerText (a.decimalPoint - 1).toNat)) := by
  rw [convert_eq a hpadding, ← h.text]

/-- Where padding appends nothing, the number is printed exactly. -/
theorem ExponentParts.printsExactly (h : ExponentParts a d)
    (hsame : DoubleConvertor.convert a padding = DoubleConvertor.convert a 0) :
    PrintsExactly a padding := by
  have hzero := h.convert_text (show (0 : ℤ) ≤ 15 by decide)
  rw [if_neg (by decide)] at hzero
  refine printsExactly_of_zeros (List.cons_ne_nil d []) h.isDigit_whole h.isDigit_fraction
    (power_powerText _) h.value hzero 0 ?_
  rw [hsame, hzero, List.replicate_zero, List.append_nil]

/-- With one digit, padding puts the point behind the exponent, and what is left is no number. -/
theorem ExponentParts.point_behind (h : ExponentParts a d) (hnil : a.behindFirst = [])
    (hpos : padding > 0) (hpadding : padding ≤ 15) : ¬ PrintsExactly a padding := by
  intro hexact
  have hnone := hexact.value
  rw [h.convert_text hpadding, if_pos hpos, h.text, hnil,
    padded_nil padding h.isDigit_whole (power_powerText _), Option.bind_some,
    readDecimal_point (List.cons_ne_nil d []) h.isDigit_whole, Option.map_none] at hnone
  exact Option.some_ne_none _ hnone.symm

/-- With more digits, zeros behind the exponent make it larger. -/
theorem ExponentParts.zeros_behind (h : ExponentParts a d) (hpoint : 15 < a.decimalPoint)
    {z : ℕ} (hz : 0 < z)
    (hconvert : DoubleConvertor.convert a padding
      = some (numText a.sign [d] a.behindFirst (powerText (a.decimalPoint - 1).toNat)
        ++ List.replicate z 48)) : ¬ PrintsExactly a padding := by
  intro hexact
  have hread := hexact.value
  rw [hconvert, Option.bind_some, numText_append_power,
    readDecimal_numText (List.cons_ne_nil d []) h.isDigit_whole h.isDigit_fraction
      (power_zeros _ z), Option.map_some, Option.some.injEq,
    ← value_eq a h.value] at hread
  have hd : isDigit d = true := h.isDigit_whole d List.mem_cons_self
  have hexponent := value_inj_exponent (decVal_cons_ne_zero hd h.first_ne_zero a.behindFirst) hread
  -- the exponent is at least 15, and is multiplied by ten for each zero
  have hpow : 10 ^ 1 ≤ 10 ^ z := Nat.pow_le_pow_right (by norm_num) hz
  have hmul := Nat.mul_le_mul_left (a.decimalPoint - 1).toNat hpow
  omega

/-- **Numbers with an exponent** are printed exactly where padding appends nothing. -/
theorem printsExactly_exponential (hpoint : 15 < a.decimalPoint) (hpadding : padding ≤ 15) :
    PrintsExactly a padding ↔
      padding ≤ 0 ∨ 2 ≤ a.significant ∧ padding ≤ a.significant + a.exponentDigits := by
  obtain ⟨d, h⟩ := fastDtoa_exponential hpoint
  have hlen := length_powerText hpoint
  rw [h.significant_eq]
  by_cases hpos : padding > 0
  · rw [or_iff_right (not_le.mpr hpos)]
    by_cases hnil : a.behindFirst = []
    · exact iff_of_false (h.point_behind hnil hpos hpadding) fun hlong => by simp [hnil] at hlong
    · have hlong := List.length_pos_of_ne_nil hnil
      have hconvert := h.convert_text hpadding
      rw [if_pos hpos, h.text, padded_fraction _ padding h.isDigit_whole hnil, hlen] at hconvert
      by_cases hfit : padding ≤ (a.behindFirst.length + 1 : ℕ) + a.exponentDigits
      · -- the exponent's characters make up for the padding
        refine iff_of_true (h.printsExactly ?_) ⟨by omega, hfit⟩
        have hnone : (padding - (a.behindFirst.length + (a.exponentDigits + 1 : ℕ))).toNat = 0 := by
          omega
        rw [hconvert, hnone, List.replicate_zero, List.append_nil,
          h.convert_text (show (0 : ℤ) ≤ 15 by decide), if_neg (by decide)]
      · exact iff_of_false (h.zeros_behind hpoint (by omega) hconvert) fun hfits =>
          hfit hfits.2
  · refine iff_of_true (h.printsExactly ?_) (Or.inl (not_lt.mp hpos))
    rw [h.convert_text hpadding, h.convert_text (show (0 : ℤ) ≤ 15 by decide), if_neg hpos,
      if_neg (by decide)]

end Exponent

/-- **When a padded text denotes the number it was given.** -/
theorem convert_prints_iff (a : DoubleAscii) {padding : ℤ} (hpadding : padding ≤ 15) :
    PrintsExactly a padding ↔ a.decimalPoint ≤ 15 ∨ padding ≤ 0 ∨
      2 ≤ a.significant ∧ padding ≤ a.significant + a.exponentDigits := by
  rcases le_or_gt a.decimalPoint 15 with hpoint | hpoint
  · exact iff_of_true (printsExactly_fixed hpoint hpadding) (Or.inl hpoint)
  · rw [printsExactly_exponential hpoint hpadding, or_iff_right (not_le.mpr hpoint)]

/-- The double 1.25e20, as `DoubleToAscii` returns it. -/
def fiveQuarters : DoubleAscii where
  sign := true
  decimalRep := lit "125"
  decimalPoint := 21
  isDigit_rep := List.all_eq_true.mp rfl
  rep_ne_nil := by decide
  length_le := by decide
  first_ne_zero := by decide
  point_ge := by decide
  point_le := by decide

/-- With two digits behind the point and two in the exponent, a padding of five adds no zero, and
one of six does. -/
theorem convert_prints_iff_fiveQuarters :
    PrintsExactly fiveQuarters 5 ∧ ¬ PrintsExactly fiveQuarters 6 :=
  ⟨(@convert_prints_iff fiveQuarters 5 (by decide)).mpr (by decide +kernel),
    mt (@convert_prints_iff fiveQuarters 6 (by decide)).mp (by decide +kernel)⟩

/-- The double 1e20, as `DoubleToAscii` returns it. -/
def tenToTwenty : DoubleAscii where
  sign := false
  decimalRep := lit "1"
  decimalPoint := 21
  isDigit_rep := List.all_eq_true.mp rfl
  rep_ne_nil := by decide
  length_le := by decide
  first_ne_zero := by decide
  point_ge := by decide
  point_le := by decide

/-- It is printed as "1e20.00". -/
theorem convert_point_behind_exponent :
    DoubleConvertor.convert tenToTwenty 2 = some (lit "1e20.00")
      ∧ ¬ PrintsExactly tenToTwenty 2 := by
  obtain ⟨d, hparts⟩ := fastDtoa_exponential (a := tenToTwenty) (by decide)
  have hd : 49 = d := (List.cons.inj hparts.rep).1
  have hpower : powerText (tenToTwenty.decimalPoint - 1).toNat = lit "e20" := by
    rw [show (tenToTwenty.decimalPoint - 1).toNat = 20 by decide, powerText,
      fmtD0_div_ten (by decide), fmtD0_of_le_nine (by decide)]
    decide
  have hprint : fastDtoa tenToTwenty = lit "1e20" := by
    rw [hparts.text, ← hd, hpower]
    decide
  have hconvert : DoubleConvertor.convert tenToTwenty 2 = some (lit "1e20.00") := by
    rw [DoubleConvertor.convert, hprint]
    decide
  refine ⟨hconvert, fun h => ?_⟩
  have hvalue := h.value
  rw [hconvert, Option.bind_some, show readDecimal (lit "1e20.00") = none by decide,
    Option.map_none] at hvalue
  exact Option.some_ne_none _ hvalue.symm

end S4LibLite

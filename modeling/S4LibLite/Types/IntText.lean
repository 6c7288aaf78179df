import S4LibLite.Types.Convertors

/-!
# Integers and their texts (`s4convertors.h`)

* `wrote_integerToStringIn`, what `integer_to_string` stores in its buffer;
* `convert_roundtrip`, `IntConvertor` prints every integer inside the buffer, and reads it back;
* `convert_exact_iff`, the texts it reads as the number they denote, or rejects.
-/

namespace S4LibLite

open BackFill

/-! ## Pairs of digits -/

theorem lit_append (s t : String) : lit (s ++ t) = lit s ++ lit t := by
  rw [lit, String.toList_append, List.map_append, lit, lit]

/-- The table holds the digits of each number below 100. -/
theorem digitPairs_getD : ∀ pos < 100, digitPairs.getD (2 * pos) 0 = digitChar (pos / 10) ∧
    digitPairs.getD (2 * pos + 1) 0 = digitChar (pos % 10) := by
  rw [digitPairs]
  simp only [lit_append]
  decide +kernel

/-- The last digit of a printed number. -/
theorem fmtD0_div_ten {n : ℕ} (hn : 9 < n) :
    fmtD0 1 n = fmtD0 1 (n / 10 : ℕ) ++ [digitChar (n % 10)] := by
  rw [fmtD0_natCast, fmtD0_natCast, Numeral.padded_one_div (by norm_num) hn, List.map_append,
    List.map_singleton]

theorem fmtD0_of_le_nine {n : ℕ} (hn : n ≤ 9) : fmtD0 1 n = [digitChar n] := by
  rw [fmtD0_natCast, Numeral.padded_one_of_lt (Nat.lt_succ_of_le hn), List.map_singleton]

/-- The sign of a printed number. -/
theorem fmtD0_of_neg {v : ℤ} (hv : v < 0) : fmtD0 1 v = 45 :: fmtD0 1 (v.natAbs : ℤ) := by
  rw [fmtD0, if_pos hv, fmtD0_natCast, Nat.sub_self, Numeral.padded_zero,
    Numeral.padded_one_of_pos (Int.natAbs_pos.mpr hv.ne)]

/-- What `%d` prints of an integer. -/
theorem fmtD0_one_eq (v : ℤ) :
    fmtD0 1 v = if v < 0 then 45 :: fmtD0 1 (v.natAbs : ℤ) else fmtD0 1 (v.natAbs : ℤ) := by
  split_ifs with h
  · exact fmtD0_of_neg h
  · rw [Int.natAbs_of_nonneg (not_lt.mp h)]

/-- The last two digits. -/
theorem fmtD0_div_hundred {n : ℕ} (hn : 99 < n) :
    fmtD0 1 n = fmtD0 1 (n / 100 : ℕ) ++ [digitChar (n % 100 / 10), digitChar (n % 100 % 10)] := by
  rw [fmtD0_div_ten (by omega), fmtD0_div_ten (by omega), Nat.div_div_eq_div_mul,
    show n / 10 % 10 = n % 100 / 10 by omega, show n % 10 = n % 100 % 10 by omega,
    List.append_assoc, List.singleton_append]

/-! ## Printing -/

theorem wrote_putPair {m : ℕ} {pos : ℕ} (hpos : pos < 100) (p : BackFill UInt8 m) :
    Wrote [digitChar (pos / 10), digitChar (pos % 10)] p (putPair pos p) := by
  obtain ⟨hfirst, hsecond⟩ := digitPairs_getD pos hpos
  rw [putPair, hfirst, hsecond]
  exact (wrote_put _ p).bind fun b _ => wrote_put _ b

theorem wrote_putLast {m : ℕ} {number : ℕ} (hnumber : number ≤ 99) (p : BackFill UInt8 m) :
    Wrote (fmtD0 1 number) p (putLast number p) := by
  rw [putLast]
  by_cases h : 9 < number
  · rw [if_pos h, fmtD0_div_ten h, fmtD0_of_le_nine (by omega)]
    exact wrote_putPair (by omega) p
  · rw [if_neg h, fmtD0_of_le_nine (by omega)]
    exact wrote_put _ p

/-- **The loop**, and what it has left of the number. -/
theorem wrote_digits {m : ℕ} (number : ℕ) (p : BackFill UInt8 m) :
    Wrote (fmtD0 1 number) p
      ((integerToStringLoopIn number p).bind fun r => putLast r.1 r.2) := by
  induction number using Nat.strong_induction_on generalizing p with
  | _ number ih =>
    rw [integerToStringLoopIn]
    by_cases h : 99 < number
    · rw [if_pos h, fmtD0_div_hundred h, Option.bind_assoc]
      exact (wrote_putPair (by omega) p).bind fun b _ => ih _ (by omega) b
    · rw [if_neg h]
      exact wrote_putLast (by omega) p

/-- `UNSIGNED_VALUE_OF`: the negation of `INT64_MIN` wraps to itself. -/
theorem unsigned_value (t : Int64) :
    (if t < 0 then (-t).toUInt64 else t.toUInt64).toNat = t.toInt.natAbs := by
  have hcond := BitVec.toInt_eq_toNat_cond t.toBitVec
  have hlt := t.toBitVec.isLt
  have hneg : (-t).toUInt64.toNat = (2 ^ 64 - t.toBitVec.toNat) % 2 ^ 64 := BitVec.toNat_neg _
  have hpos : t.toUInt64.toNat = t.toBitVec.toNat := rfl
  have hint : t.toInt = t.toBitVec.toInt := rfl
  rw [apply_ite UInt64.toNat, hneg, hpos]
  simp only [Int64.lt_iff_toInt_lt, hint, Int64.toInt_zero]
  split_ifs at hcond ⊢ <;> omega

/-- **What `integer_to_string` stores.** -/
theorem wrote_integerToStringIn {m : ℕ} (buf : Vector UInt8 m) (t : Int64) :
    Wrote (fmtD0 1 t.toInt) (start buf) (integerToStringIn buf t) := by
  have hdigits := wrote_digits t.toInt.natAbs (start buf)
  rw [integerToStringIn]
  simp only [unsigned_value]
  by_cases h : t < 0
  · have hneg : t.toInt < 0 := Int64.lt_iff_toInt_lt.mp h
    rw [if_pos h, fmtD0_of_neg hneg]
    exact hdigits.bind fun b _ => wrote_put 45 b
  · have hpos : 0 ≤ t.toInt := not_lt.mp fun hneg => h (Int64.lt_iff_toInt_lt.mpr hneg)
    rw [if_neg h]
    rw [Int.natAbs_of_nonneg hpos] at hdigits
    exact hdigits

/-! ## The text without its buffer -/

theorem pushPair_eq {pos : ℕ} (hpos : pos < 100) (p : Bytes) :
    pushPair pos p = [digitChar (pos / 10), digitChar (pos % 10)] ++ p := by
  obtain ⟨hfirst, hsecond⟩ := digitPairs_getD pos hpos
  rw [pushPair, hfirst, hsecond]
  rfl

theorem integerToStringLoop_eq (number : ℕ) (p : Bytes) :
    (if 9 < (integerToStringLoop number p).1 then
      pushPair (integerToStringLoop number p).1 (integerToStringLoop number p).2
    else digitChar (integerToStringLoop number p).1 :: (integerToStringLoop number p).2)
      = fmtD0 1 number ++ p := by
  induction number using Nat.strong_induction_on generalizing p with
  | _ number ih =>
    rw [integerToStringLoop]
    by_cases h : 99 < number
    · rw [if_pos h, ih _ (by omega), pushPair_eq (by omega), fmtD0_div_hundred h,
        List.append_assoc]
    · rw [if_neg h]
      by_cases h9 : 9 < number
      · rw [if_pos h9, pushPair_eq (by omega), fmtD0_div_ten h9, fmtD0_of_le_nine (by omega)]
        rfl
      · rw [if_neg h9, fmtD0_of_le_nine (by omega)]
        rfl

/-- What an integer prints as. -/
theorem integerToString_eq (t : Int64) : integerToString t = fmtD0 1 t.toInt := by
  have hdigits := integerToStringLoop_eq t.toInt.natAbs []
  rw [List.append_nil] at hdigits
  rw [integerToString]
  simp only [unsigned_value, hdigits]
  rw [fmtD0_one_eq t.toInt]
  simp only [Int64.lt_iff_toInt_lt, Int64.toInt_zero]

/-! ## Reading -/

/-- The character, as a `char` with its sign, less '0', modulo 2^64. -/
theorem toNat_unsignedDigit (c : UInt8) : ((unsignedDigit c).toNat : ℤ)
    = (c.toNat - (if 128 ≤ c.toNat then 256 else 0) - 48) % 2 ^ 64 := by
  have hchar : c.toInt8.toInt = c.toNat - if 128 ≤ c.toNat then 256 else 0 := by
    have hcond := BitVec.toInt_eq_toNat_cond c.toBitVec
    have hint : c.toInt8.toInt = c.toBitVec.toInt := rfl
    have hnat : c.toNat = c.toBitVec.toNat := rfl
    rw [hint, hnat]
    split_ifs at hcond ⊢ <;> omega
  have hsub : (c.toInt8.toInt32 - 48).toInt = c.toInt8.toInt - 48 := by
    have hlow := c.toInt8.le_toInt
    have hhigh := c.toInt8.toInt_lt
    have hzero : Int32.toInt 48 = 48 := rfl
    rw [Int32.toInt_sub, Int8.toInt_toInt32, hzero]
    exact Int.bmod_eq_of_le (by omega) (by omega)
  have hcond := BitVec.toInt_eq_toNat_cond (c.toInt8.toInt32 - 48).toInt64.toBitVec
  have hint : (c.toInt8.toInt32 - 48).toInt64.toBitVec.toInt = (c.toInt8.toInt32 - 48).toInt :=
    Int32.toInt_toInt64 _
  have hnat : (unsignedDigit c).toNat = (c.toInt8.toInt32 - 48).toInt64.toBitVec.toNat := rfl
  have hlt := (unsignedDigit c).toNat_lt
  rw [← hnat, hint, hsub, hchar] at hcond
  split_ifs at hcond ⊢ <;> omega

/-- A character below '0' becomes a large number. -/
theorem unsignedDigit_spec (c : UInt8) :
    if isDigit c then unsignedDigit c = UInt64.ofNat (digitVal c) else 9 < unsignedDigit c := by
  have hnat := toNat_unsignedDigit c
  have hlt := c.toNat_lt
  split_ifs with hc
  · have hrange := isDigit_iff.mp hc
    rw [if_neg (by omega)] at hnat
    have hval : (unsignedDigit c).toNat = digitVal c := by
      rw [digitVal]
      omega
    rw [← hval, UInt64.ofNat_toNat]
  · rw [isDigit_iff] at hc
    have hlarge : 9 < (unsignedDigit c).toNat := by
      split_ifs at hnat <;> omega
    exact UInt64.lt_iff_toNat_lt.mpr hlarge
theorem not_nine_lt_ofNat {d : ℕ} (hd : d < 10) : ¬ 9 < UInt64.ofNat d := by
  interval_cases d <;> decide

/-- One digit, modulo 2^64. -/
theorem accumulate (m : ℤ) (d : ℕ) :
    ((10 * Int64.ofInt m).toUInt64 + UInt64.ofNat d).toInt64 = Int64.ofInt (m * 10 + d) := by
  have hwrap : ((10 * Int64.ofInt m).toUInt64 + UInt64.ofNat d).toInt64
      = 10 * Int64.ofInt m + Int64.ofNat d := rfl
  rw [hwrap, Int64.ofInt_add, Int64.ofInt_mul, ← Int64.ofInt_eq_ofNat, Int64.mul_comm]
  rfl

/-- **The loop on digits**, modulo 2^64. -/
theorem convertLoop_digits {s : Bytes} (h : ∀ c ∈ s, isDigit c = true) (m : ℤ) :
    convertLoop (Int64.ofInt m) s = some (Int64.ofInt (m * 10 ^ s.length + decVal s)) := by
  induction s generalizing m with
  | nil => simp [convertLoop, decVal, Numeral.value]
  | cons c s ih =>
    obtain ⟨hc, hs⟩ := List.forall_mem_cons.mp h
    have hdigit := unsignedDigit_spec c
    rw [if_pos hc] at hdigit
    rw [convertLoop, hdigit, if_neg (not_nine_lt_ofNat (digitVal_lt hc)), accumulate, ih hs,
      decVal_cons, List.length_cons, pow_succ]
    push_cast
    ring_nf

/-- The loop on another character. -/
theorem convertLoop_none {s : Bytes} (h : ¬ ∀ c ∈ s, isDigit c = true) (x : Int64) :
    convertLoop x s = none := by
  induction s generalizing x with
  | nil => exact absurd (List.forall_mem_nil _) h
  | cons c s ih =>
    have hdigit := unsignedDigit_spec c
    rw [convertLoop]
    by_cases hc : isDigit c = true
    · simp only [ih fun hs => h (List.forall_mem_cons.mpr ⟨hc, hs⟩), ite_self]
    · rw [if_neg hc] at hdigit
      exact if_pos hdigit

/-! ## Texts of integers -/

/-- The text is an optional minus sign and digits, which denote `n`. -/
def Denotes (s : Bytes) (n : ℤ) : Prop :=
  ∃ ds : Bytes, ds ≠ [] ∧ (∀ c ∈ ds, isDigit c = true) ∧
    (s = ds ∧ n = decVal ds ∨ s = 45 :: ds ∧ n = -(decVal ds : ℤ))

/-- The range of `int64_t`. -/
def InInt64 (n : ℤ) : Prop := -2 ^ 63 ≤ n ∧ n < 2 ^ 63

/-- Digits do not begin with the sign. -/
theorem head?_ne_minus {ds : Bytes} (h : ∀ c ∈ ds, isDigit c = true) : ds.head? ≠ some 45 := by
  intro hhead
  exact absurd (h 45 (List.mem_of_head? hhead)) (by decide)

/-- The text of an integer is read, modulo 2^64. -/
theorem convertInto_of_denotes {s : Bytes} {n : ℤ} (h : Denotes s n) (result : Int64) :
    IntConvertor.convertInto s result = (true, Int64.ofInt n) := by
  obtain ⟨ds, hne, hds, hs⟩ := h
  have hloop : convertLoop 0 ds = some (Int64.ofInt (decVal ds)) := by
    have hdigits := convertLoop_digits hds 0
    rwa [zero_mul, zero_add] at hdigits
  rcases hs with ⟨rfl, rfl⟩ | ⟨rfl, rfl⟩
  · rw [IntConvertor.convertInto, if_neg hne]
    simp only [if_neg (head?_ne_minus hds), if_neg hne, hloop]
  · rw [IntConvertor.convertInto, if_neg (List.cons_ne_nil _ _)]
    simp only [List.head?_cons, if_true, List.tail_cons, if_neg hne, hloop, Int64.ofInt_neg]

/-- Other texts are rejected. -/
theorem convertInto_of_not_denotes {s : Bytes} (h : ∀ n, ¬ Denotes s n) (result : Int64) :
    IntConvertor.convertInto s result = (false, result) := by
  rw [IntConvertor.convertInto]
  by_cases hnil : s = []
  · rw [if_pos hnil]
  rw [if_neg hnil]
  by_cases hminus : s.head? = some 45
  · obtain ⟨ds, rfl⟩ := List.head?_eq_some_iff.mp hminus
    simp only [if_pos hminus, List.tail_cons]
    by_cases hds : ds = []
    · rw [if_pos hds]
    · rw [if_neg hds, convertLoop_none fun hdigits =>
        h _ ⟨ds, hds, hdigits, Or.inr ⟨rfl, rfl⟩⟩]
  · simp only [if_neg hminus, if_neg hnil]
    rw [convertLoop_none fun hdigits => h _ ⟨s, hnil, hdigits, Or.inl ⟨rfl, rfl⟩⟩]

theorem Denotes.unique {s : Bytes} {n m : ℤ} (h : Denotes s n) (h' : Denotes s m) : n = m := by
  obtain ⟨ds, -, hds, hs⟩ := h
  obtain ⟨ds', -, hds', hs'⟩ := h'
  rcases hs with ⟨rfl, rfl⟩ | ⟨rfl, rfl⟩
  · rcases hs' with ⟨rfl, rfl⟩ | ⟨rfl, rfl⟩
    · rfl
    · exact absurd rfl (head?_ne_minus hds)
  · rcases hs' with ⟨rfl, rfl⟩ | ⟨heq, rfl⟩
    · exact absurd rfl (head?_ne_minus hds')
    · rw [(List.cons.inj heq).2]

/-! ## The converter -/

/-- The canonical text of a number: a minus sign where it is negative, and its digits, without a
zero in front. -/
structure Canonical (v : ℤ) (s : Bytes) : Prop where
  digits : ∃ ds : Bytes, s = (if v < 0 then 45 :: ds else ds) ∧ ds ≠ [] ∧
    (∀ c ∈ ds, isDigit c = true) ∧ decVal ds = v.natAbs ∧ (ds.head? = some 48 → ds = [48])

/-- A printed number begins with a zero only where it is zero. -/
theorem head?_fmtD0_one {n : ℕ} (h : (fmtD0 1 n).head? = some 48) : n = 0 := by
  rw [fmtD0_natCast, List.head?_map, Option.map_eq_some_iff] at h
  obtain ⟨d, hhead, hchar⟩ := h
  have hd : d < 10 := Numeral.padded_lt_base (by norm_num) (List.mem_of_head? hhead)
  have hval := digitVal_digitChar hd
  rw [hchar] at hval
  obtain rfl : 0 = d := hval
  exact Numeral.head?_padded_one hhead

theorem canonical_fmtD0 (v : ℤ) : Canonical v (fmtD0 1 v) := by
  refine ⟨fmtD0 1 (v.natAbs : ℤ), fmtD0_one_eq v, fmtD0_ne_nil Nat.one_pos _,
    fun c hc => isDigit_of_mem_fmtD0 hc, decVal_fmtD0 1 _, fun hhead => ?_⟩
  rw [head?_fmtD0_one hhead]
  exact fmtD0_of_le_nine (Nat.zero_le 9)

theorem Canonical.denotes {v : ℤ} {s : Bytes} (h : Canonical v s) : Denotes s v := by
  obtain ⟨ds, hs, hne, hds, hval, -⟩ := h.digits
  refine ⟨ds, hne, hds, ?_⟩
  rw [hval]
  split_ifs at hs with hv
  · exact Or.inr ⟨hs, by omega⟩
  · exact Or.inl ⟨hs, by omega⟩

/-- The buffer has room for the longest text, that of `INT64_MIN`. -/
theorem length_fmtD0_int64 (v : Int64) : (fmtD0 1 v.toInt).length ≤ intBufferSize := by
  have hmin := Int64.le_toInt v
  have hmax := Int64.toInt_lt v
  have hlen : (fmtD0 1 (v.toInt.natAbs : ℤ)).length ≤ 19 :=
    length_fmtD0_le (by norm_num) (by omega)
  rw [fmtD0_one_eq, intBufferSize]
  split_ifs
  · exact Nat.succ_le_succ hlen
  · exact hlen.trans (by norm_num)

theorem convertIn_eq (v : Int64) (buffer : Vector UInt8 intBufferSize) :
    IntConvertor.convertIn buffer v = some (fmtD0 1 v.toInt) := by
  have hwrote := wrote_integerToStringIn buffer v
  have hsome := hwrote.isSome_iff.mpr (length_fmtD0_int64 v)
  obtain ⟨b, hb⟩ := Option.isSome_iff_exists.mp hsome
  rw [hb] at hwrote
  rw [IntConvertor.convertIn, hb, Option.map_some, hwrote.text_eq, start_text, List.append_nil]

/-- The buffer changes nothing of the text. -/
theorem convertIn_eq_convert (v : Int64) (buffer : Vector UInt8 intBufferSize) :
    IntConvertor.convertIn buffer v = some (IntConvertor.convert v) := by
  rw [convertIn_eq, IntConvertor.convert, integerToString_eq]

/-- **Printing and reading back**: for every integer `IntConvertor::convert` stores inside its
buffer and leaves the canonical text there, which both overloads for strings read as the
integer. -/
theorem convert_roundtrip (v : Int64) (buffer : Vector UInt8 intBufferSize) :
    ∃ text, IntConvertor.convertIn buffer v = some text ∧ Canonical v.toInt text ∧
      (∀ result, IntConvertor.convertInto text result = (true, v)) ∧
      IntConvertor.convertOrThrow text = .ok v := by
  have hread : ∀ result, IntConvertor.convertInto (fmtD0 1 v.toInt) result = (true, v) := by
    intro result
    rw [convertInto_of_denotes (canonical_fmtD0 v.toInt).denotes, Int64.ofInt_toInt]
  refine ⟨IntConvertor.convert v, convertIn_eq_convert v buffer, ?_⟩
  rw [IntConvertor.convert, integerToString_eq]
  refine ⟨canonical_fmtD0 v.toInt, hread, ?_⟩
  rw [IntConvertor.convertOrThrow, hread]
  rfl

/-- What the two overloads for strings should do with a text. -/
structure ConvertsExactly (s : Bytes) : Prop where
  accepts : ∀ n, Denotes s n → InInt64 n → ∀ result,
    IntConvertor.convertInto s result = (true, Int64.ofInt n)
  rejects : (∀ n, Denotes s n → ¬ InInt64 n) → ∀ result,
    IntConvertor.convertInto s result = (false, result)
  returns : ∀ n, Denotes s n → InInt64 n → IntConvertor.convertOrThrow s = .ok (Int64.ofInt n)
  throws : (∀ n, Denotes s n → ¬ InInt64 n) →
    IntConvertor.convertOrThrow s = .error (fieldConvertError s)

/-- **Exactly the integers**, with their values, where the text does not denote an integer
outside the range. -/
theorem convert_exact_iff (s : Bytes) :
    ConvertsExactly s ↔ ∀ n, Denotes s n → InInt64 n := by
  constructor
  · intro h n hn
    by_contra hout
    have hreject := h.rejects (fun m hm => hn.unique hm ▸ hout) 0
    rw [convertInto_of_denotes hn] at hreject
    exact Bool.noConfusion (congrArg Prod.fst hreject)
  · intro h
    refine ⟨fun n hn _ => convertInto_of_denotes hn, fun hout => ?_, fun n hn _ => ?_,
      fun hout => ?_⟩
    · exact convertInto_of_not_denotes fun n hn => hout n hn (h n hn)
    · rw [IntConvertor.convertOrThrow, convertInto_of_denotes hn]
      rfl
    · rw [IntConvertor.convertOrThrow,
        convertInto_of_not_denotes fun n hn => hout n hn (h n hn)]
      rfl

/-- The first number that is too large becomes negative. -/
theorem convert_wraps : ¬ ConvertsExactly (lit "9223372036854775808") := by
  intro h
  have hreject := h.rejects (fun n hn hin => ?_) 0
  · exact absurd hreject (by decide)
  · have hval : Denotes (lit "9223372036854775808") 9223372036854775808 :=
      ⟨lit "9223372036854775808", by decide, List.all_eq_true.mp rfl, Or.inl ⟨rfl, by decide⟩⟩
    rw [hn.unique hval] at hin
    exact absurd hin.2 (by norm_num)

end S4LibLite

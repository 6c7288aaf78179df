import S4LibLite.Common.CStr
import S4LibLite.Lib.BackFill
import S4LibLite.Lib.Splitting

/-!
# Commas in printed numbers (`s4string.cpp`)

`string_format_number_comma` copies a printed number into a local array, from its end on, and
puts a comma between every three digits of the part in front of the point. The model answers
`none` where a store is outside the array.

* `wrote_commaLoop`, the loop writes what it reads, with the commas;
* `stringFormatNumberComma_correct`, the result is the number with its commas;
* `stringFormatNumberComma_inside_iff`, which numbers the array has room for.
-/

namespace S4LibLite

open BackFill Splitting

/-- `DIGIT_MAX`. -/
def digitMax : ℕ := 50

/-- `strchr(s, c)`: the text from the first `c` on, which is empty for the null pointer. -/
def strchr (s : Bytes) (c : UInt8) : Bytes := s.dropWhile (· ≠ c)

/-- What a C function sees of a string: the characters in front of the first NUL. -/
def cStr (s : Bytes) : Bytes := s.takeWhile (· ≠ 0)

/-- `*src`, where `src` may have left `num` at its front: `front` is the memory before it. -/
def charAt (front : ℕ → UInt8) (num : Bytes) (src : ℤ) : UInt8 :=
  if 0 ≤ src then num.getD src.toNat 0 else front (-src - 1).toNat

/-- The `while (len--!=0)` loop of `string_format_number_comma`. -/
def commaLoop (front : ℕ → UInt8) (num : Bytes) :
    ℕ → ℤ → ℕ → BackFill UInt8 digitMax → Option (BackFill UInt8 digitMax)
  | 0, _, _, dst => some dst
  | len + 1, src, cnt, dst =>
    let c := charAt front num src
    if isDigit c then
      -- a comma if three digits have been added already
      let dst := if cnt ≠ 0 ∧ cnt % 3 = 0 then dst.put 44 else some dst
      (dst.bind (put c)).bind (commaLoop front num len (src - 1) (cnt + 1))
    else (dst.put c).bind (commaLoop front num len (src - 1) cnt)

/-- `string_format_number_comma`; `commas` is the array as it was. -/
def stringFormatNumberComma (front : ℕ → UInt8) (commas : Vector UInt8 digitMax) (num : Bytes) :
    Option Bytes :=
  if num.length < 3 then some num
  else
    let dot := strchr (cStr num) 46
    let dst :=
      if dot ≠ [] then
        (puts (dot ++ [0]) (start commas)).bind
          (commaLoop front num (num.length - dot.length) ((cStr num).length - dot.length - 1) 0)
      else (put 0 (start commas)).bind (commaLoop front num num.length (num.length - 1) 0)
    dst.map fun dst => cStr dst.text

/-! ## Digits and commas -/

/-- The digit characters of a text. -/
def digitCount (s : Bytes) : ℕ := s.countP isDigit

@[simp] theorem digitCount_nil : digitCount [] = 0 := rfl

@[simp] theorem digitCount_cons (c : UInt8) (s : Bytes) :
    digitCount (c :: s) = digitCount s + if isDigit c then 1 else 0 := List.countP_cons

@[simp] theorem digitCount_append (s t : Bytes) :
    digitCount (s ++ t) = digitCount s + digitCount t := List.countP_append

/-- The text with a comma directly after each digit that has a positive multiple of three digits
to its right; `behind` digits follow the text. -/
def insertCommas (behind : ℕ) : Bytes → Bytes
  | [] => []
  | c :: s =>
    if isDigit c ∧ digitCount s + behind ≠ 0 ∧ (digitCount s + behind) % 3 = 0 then
      c :: 44 :: insertCommas behind s
    else c :: insertCommas behind s

theorem insertCommas_append (behind : ℕ) (s t : Bytes) :
    insertCommas behind (s ++ t)
      = insertCommas (digitCount t + behind) s ++ insertCommas behind t := by
  induction s with
  | nil => rfl
  | cons c s ih =>
    rw [List.cons_append, insertCommas, insertCommas, digitCount_append, Nat.add_assoc, ih]
    split_ifs <;> rfl

/-- The commas of a text: one for every three digits to the right of another. -/
theorem length_insertCommas (behind : ℕ) (s : Bytes) :
    (insertCommas behind s).length + (behind - 1) / 3
      = s.length + (digitCount s + behind - 1) / 3 := by
  induction s with
  | nil => simp [insertCommas]
  | cons c s ih =>
    rw [insertCommas, digitCount_cons]
    by_cases hc : isDigit c = true
    · rw [if_pos hc]
      split_ifs with hcomma
      · simp only [List.length_cons]
        omega
      · simp only [hc, true_and, not_and] at hcomma
        simp only [List.length_cons]
        omega
    · rw [if_neg hc, if_neg fun h => hc h.1]
      simp only [List.length_cons, Nat.add_zero]
      omega

/-! ## The loop -/

/-- The characters the loop reads. -/
def scanned (front : ℕ → UInt8) (num : Bytes) : ℕ → ℤ → Bytes
  | 0, _ => []
  | len + 1, src => scanned front num len (src - 1) ++ [charAt front num src]

theorem length_scanned (front : ℕ → UInt8) (num : Bytes) (len : ℕ) (src : ℤ) :
    (scanned front num len src).length = len := by
  induction len generalizing src with
  | zero => rfl
  | succ len ih => rw [scanned, List.length_append, ih, List.length_singleton]

/-- **The loop** writes the characters it reads, with a comma after a digit that has a positive
multiple of three digits to its right, the `cnt` digits read before included. -/
theorem wrote_commaLoop (front : ℕ → UInt8) (num : Bytes) (len : ℕ) (src : ℤ) (cnt : ℕ)
    (dst : BackFill UInt8 digitMax) :
    Wrote (insertCommas cnt (scanned front num len src)) dst
      (commaLoop front num len src cnt dst) := by
  induction len generalizing src cnt dst with
  | zero => exact .nil dst
  | succ len ih =>
    rw [scanned, insertCommas_append, commaLoop]
    generalize charAt front num src = c
    rw [digitCount_cons, digitCount_nil, Nat.zero_add]
    by_cases hc : isDigit c = true
    · rw [if_pos hc, if_pos hc, Nat.add_comm 1 cnt]
      refine Wrote.bind ?_ fun b _ => ih _ _ b
      rw [insertCommas, digitCount_nil, Nat.zero_add]
      by_cases hcomma : cnt ≠ 0 ∧ cnt % 3 = 0
      · rw [if_pos ⟨hc, hcomma⟩]
        simp only [if_pos hcomma]
        exact (wrote_put 44 dst).bind fun b _ => wrote_put c b
      · rw [if_neg fun h => hcomma h.2]
        simp only [if_neg hcomma]
        exact wrote_put c dst
    · rw [if_neg hc, if_neg hc, Nat.zero_add]
      refine Wrote.bind ?_ fun b _ => ih _ _ b
      rw [insertCommas, if_neg fun h => hc h.1]
      exact wrote_put c dst

/-- Inside `num` the loop reads what `num` begins with. -/
theorem scanned_eq_take (front : ℕ → UInt8) {num : Bytes} {n : ℕ} (hn : n ≤ num.length) :
    scanned front num n (n - 1) = num.take n := by
  induction n with
  | zero => rfl
  | succ n ih =>
    have hsrc : ((n + 1 : ℕ) : ℤ) - 1 = n := by omega
    rw [scanned, hsrc, ih (Nat.le_of_succ_le hn), List.take_succ_eq_append_getElem hn, charAt,
      if_pos (Int.natCast_nonneg n), Int.toNat_natCast,
      List.getD_eq_getElem?_getD, List.getElem?_eq_getElem hn, Option.getD_some]

/-! ## The function -/

/-- What the loop reads of `num`: the part in front of the point. Where a NUL stands behind the
point, `strlen` has made the fraction too short, and it goes on in the memory before `num`. -/
def mantissa (front : ℕ → UInt8) (num : Bytes) : Bytes :=
  let dot := strchr (cStr num) 46
  if dot ≠ [] then
    scanned front num (num.length - dot.length) ((cStr num).length - dot.length - 1)
  else scanned front num num.length (num.length - 1)

theorem length_strchr_le (num : Bytes) : (strchr (cStr num) 46).length ≤ num.length :=
  (List.length_dropWhile_le _ _).trans (List.takeWhile_prefix _).length_le

theorem length_mantissa (front : ℕ → UInt8) (num : Bytes) :
    (mantissa front num).length + (strchr (cStr num) 46).length = num.length := by
  have hle := length_strchr_le num
  unfold mantissa
  by_cases hdot : strchr (cStr num) 46 ≠ []
  · rw [if_pos hdot, length_scanned]
    omega
  · rw [if_neg hdot, length_scanned, not_not.mp hdot, List.length_nil, Nat.add_zero]

/-- **What is written**: the part in front of the point with its commas, the fraction, and the
terminator. -/
theorem stringFormatNumberComma_eq (front : ℕ → UInt8) (commas : Vector UInt8 digitMax)
    {num : Bytes} (hlen : ¬ num.length < 3) :
    ∃ dst, Wrote (insertCommas 0 (mantissa front num) ++ (strchr (cStr num) 46 ++ [0]))
        (start commas) dst ∧
      stringFormatNumberComma front commas num = dst.map fun dst => cStr dst.text := by
  refine ⟨_, ?_, by rw [stringFormatNumberComma, if_neg hlen]⟩
  unfold mantissa
  by_cases hdot : strchr (cStr num) 46 ≠ []
  · rw [if_pos hdot, if_pos hdot]
    exact (wrote_puts _ _).bind fun b _ => wrote_commaLoop front num _ _ 0 b
  · rw [if_neg hdot, if_neg hdot, not_not.mp hdot, List.nil_append]
    exact (wrote_put 0 _).bind fun b _ => wrote_commaLoop front num _ _ 0 b

/-! ## Strings without NUL -/

theorem cStr_of_notMem {s : Bytes} (h : 0 ∉ s) : cStr s = s := before_of_notMem h

theorem mem_insertCommas {behind : ℕ} {s : Bytes} {c : UInt8}
    (h : c ∈ insertCommas behind s) : c = 44 ∨ c ∈ s := by
  induction s with
  | nil => exact Or.inr h
  | cons a s ih =>
    rw [insertCommas] at h
    rw [List.mem_cons]
    split_ifs at h
    · rcases List.mem_cons.mp h with h | h
      · exact Or.inr (Or.inl h)
      · rcases List.mem_cons.mp h with h | h
        · exact Or.inl h
        · exact (ih h).imp_right Or.inr
    · rcases List.mem_cons.mp h with h | h
      · exact Or.inr (Or.inl h)
      · exact (ih h).imp_right Or.inr

/-- A text with a terminator behind it. -/
theorem cStr_append_zero {s : Bytes} (h : 0 ∉ s) : cStr (s ++ [0]) = s := before_cut h []

/-- The loop stays inside such a string. -/
theorem mantissa_of_notMem (front : ℕ → UInt8) {num : Bytes} (h : 0 ∉ num) :
    mantissa front num = num.takeWhile (· ≠ 46) := by
  have hparts := List.takeWhile_append_dropWhile (p := (· ≠ 46)) (l := num)
  have hlen := congrArg List.length hparts
  rw [List.length_append] at hlen
  unfold mantissa strchr
  rw [cStr_of_notMem h]
  by_cases hdot : num.dropWhile (· ≠ 46) ≠ []
  · have hsrc : (num.length : ℤ) - (num.dropWhile (· ≠ 46)).length - 1
        = (num.takeWhile (· ≠ 46)).length - 1 := by omega
    rw [if_pos hdot, hsrc, show num.length - (num.dropWhile (· ≠ 46)).length
      = (num.takeWhile (· ≠ 46)).length by omega, scanned_eq_take front (by omega)]
    exact (List.prefix_iff_eq_take.mp (List.takeWhile_prefix _)).symm
  · rw [if_neg hdot, scanned_eq_take front le_rfl, List.take_length]
    rw [not_not.mp hdot, List.append_nil] at hparts
    exact hparts.symm

/-- No commas among three digits. -/
theorem insertCommas_of_le {behind : ℕ} {s : Bytes} (h : digitCount s + behind ≤ 3) :
    insertCommas behind s = s := by
  induction s with
  | nil => rfl
  | cons c s ih =>
    rw [digitCount_cons] at h
    rw [insertCommas, ih (by omega), if_neg]
    rintro ⟨hc, hcomma⟩
    rw [if_pos hc] at h
    omega

/-- **The commas are all that changes**: the part in front of the first point has one directly
after each digit with a positive multiple of three digits to its right in that part, the rest is
copied, and strings of less than three characters are returned as they are. -/
theorem stringFormatNumberComma_correct {front : ℕ → UInt8} {commas : Vector UInt8 digitMax}
    {num r : Bytes} (h : 0 ∉ num) (hrun : stringFormatNumberComma front commas num = some r) :
    r = insertCommas 0 (num.takeWhile (· ≠ 46)) ++ num.dropWhile (· ≠ 46) ∧
      (num.length < 3 → r = num) := by
  have hparts := List.takeWhile_append_dropWhile (p := (· ≠ 46)) (l := num)
  -- two characters have no room for a comma
  by_cases hlen : num.length < 3
  · rw [stringFormatNumberComma, if_pos hlen, Option.some.injEq] at hrun
    have hshort : (num.takeWhile (· ≠ 46)).length ≤ num.length :=
      (List.takeWhile_prefix _).length_le
    have hcount : digitCount (num.takeWhile (· ≠ 46)) ≤ (num.takeWhile (· ≠ 46)).length :=
      List.countP_le_length
    rw [insertCommas_of_le (by omega), hparts]
    exact ⟨hrun.symm, fun _ => hrun.symm⟩
  · obtain ⟨dst, hwrote, heq⟩ := stringFormatNumberComma_eq front commas hlen
    rw [heq, Option.map_eq_some_iff] at hrun
    obtain ⟨b, rfl, rfl⟩ := hrun
    refine ⟨?_, fun hshort => absurd hshort hlen⟩
    rw [hwrote.text_eq, start_text, List.append_nil, mantissa_of_notMem front h,
      cStr_of_notMem h, ← List.append_assoc]
    refine cStr_append_zero fun hmem => ?_
    rcases List.mem_append.mp hmem with hmem | hmem
    · rcases mem_insertCommas hmem with h0 | hmem
      · exact absurd h0 (by decide)
      · exact h ((List.takeWhile_prefix _).subset hmem)
    · exact h ((List.dropWhile_suffix _).subset hmem)

/-- A number with a sign and a fraction. -/
theorem stringFormatNumberComma_correct_1234567 :
    lit "-1,234,567.8910"
      = insertCommas 0 ((lit "-1234567.8910").takeWhile (· ≠ 46))
        ++ (lit "-1234567.8910").dropWhile (· ≠ 46) ∧
      ((lit "-1234567.8910").length < 3 → lit "-1,234,567.8910" = lit "-1234567.8910") :=
  @stringFormatNumberComma_correct (fun _ => 0) (Vector.replicate digitMax 0) _ _
    (by decide) (by decide)

/-! ## Room -/

/-- **The array has room** for the number, one comma for every three digits to the right of
another, and the terminator. -/
theorem stringFormatNumberComma_inside_iff (front : ℕ → UInt8) (commas : Vector UInt8 digitMax)
    (num : Bytes) : (stringFormatNumberComma front commas num).isSome ↔
      num.length < 3 ∨
        num.length + 1 + (digitCount (mantissa front num) - 1) / 3 ≤ digitMax := by
  by_cases hlen : num.length < 3
  · rw [stringFormatNumberComma, if_pos hlen]
    exact iff_of_true rfl (Or.inl hlen)
  · obtain ⟨dst, hwrote, heq⟩ := stringFormatNumberComma_eq front commas hlen
    have hcommas := length_insertCommas 0 (mantissa front num)
    have hmantissa := length_mantissa front num
    rw [heq, Option.isSome_map, hwrote.isSome_iff, start_free, List.length_append,
      List.length_append, List.length_singleton]
    omega

/-- The first number of ones that is too long. -/
theorem stringFormatNumberComma_outside :
    (stringFormatNumberComma (fun _ => 0) (Vector.replicate digitMax 0)
      (List.replicate 38 49)).isSome = false := by
  decide

end S4LibLite

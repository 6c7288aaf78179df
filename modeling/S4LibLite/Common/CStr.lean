import S4LibLite.Lib.Numeral
import Mathlib.Data.List.TakeWhile
import Mathlib.Tactic.IntervalCases

/-!
# C strings: the library functions the code reads and prints numbers with

Characters are bytes; `char` is signed, so a byte from 128 on is a negative number
once it is promoted. A text is the list of its characters without the terminator;
the scanners stop at the end of the list as they do at the terminating NUL.
-/

namespace S4LibLite

/-- The characters of a `std::string` or of a C string. -/
abbrev Bytes := List UInt8

/-- A string literal. -/
def lit (s : String) : Bytes := s.toList.map Char.toUInt8

/-! ## Characters -/

/-- `isdigit`. -/
def isDigit (c : UInt8) : Bool := 48 ≤ c && c ≤ 57

/-- `isspace` in the C locale. -/
def isSpace (c : UInt8) : Bool := c == 32 || (9 ≤ c && c ≤ 13)

/-- A `char` in `uint32_t` arithmetic: sign-extended to `int`, then converted. -/
def charToUInt32 (c : UInt8) : UInt32 := c.toInt8.toInt32.toUInt32

/-- The number a digit character stands for. -/
def digitVal (c : UInt8) : ℕ := c.toNat - 48

/-- The character of a digit. -/
def digitChar (d : ℕ) : UInt8 := UInt8.ofNat (48 + d)

/-- The number a text of decimal digits denotes. -/
def decVal (s : Bytes) : ℕ := Numeral.value 10 (s.map digitVal)

/-- The characters from `0` to `9`. -/
theorem isDigit_iff {c : UInt8} : isDigit c = true ↔ 48 ≤ c.toNat ∧ c.toNat ≤ 57 := by
  rw [isDigit, Bool.and_eq_true, decide_eq_true_eq, decide_eq_true_eq, UInt8.le_iff_toNat_le,
    UInt8.le_iff_toNat_le]
  rfl

/-- Digits stand behind one another, from `0` on. -/
theorem toNat_digitChar {d : ℕ} (hd : d < 10) : (digitChar d).toNat = 48 + d := by
  rw [digitChar, UInt8.toNat_ofNat']
  omega

theorem isDigit_digitChar {d : ℕ} (hd : d < 10) : isDigit (digitChar d) = true := by
  rw [isDigit_iff, toNat_digitChar hd]
  omega

/-- A digit is worth what it was written for. -/
theorem digitVal_digitChar {d : ℕ} (hd : d < 10) : digitVal (digitChar d) = d := by
  rw [digitVal, toNat_digitChar hd]
  omega

theorem digitVal_lt {c : UInt8} (hc : isDigit c = true) : digitVal c < 10 := by
  rw [isDigit_iff] at hc
  rw [digitVal]
  omega

/-- A character that is a digit is written for its worth. -/
theorem digitChar_digitVal {c : UInt8} (hc : isDigit c = true) : digitChar (digitVal c) = c := by
  apply UInt8.toNat_inj.mp
  rw [toNat_digitChar (digitVal_lt hc), digitVal]
  rw [isDigit_iff] at hc
  omega

/-- A digit character in `uint32_t` arithmetic: `c - '0'` is its digit. -/
theorem charToUInt32_of_isDigit {c : UInt8} (hc : isDigit c = true) :
    charToUInt32 c = UInt32.ofNat (48 + digitVal c) := by
  have hlt := digitVal_lt hc
  rw [← digitChar_digitVal hc]
  generalize digitVal c = d at hlt
  interval_cases d <;> rfl

/-! ## Runs of characters -/

/-- A run ends in front of another character, or at the end of the text. -/
theorem takeWhile_run {p : UInt8 → Bool} {s t : Bytes} (hs : ∀ c ∈ s, p c = true)
    (ht : ∀ c ∈ t.head?, p c = false) : (s ++ t).takeWhile p = s := by
  rw [List.takeWhile_append_of_pos hs]
  cases t with
  | nil => rw [List.takeWhile_nil, List.append_nil]
  | cons a t => rw [List.takeWhile_cons_of_neg (by rw [ht a rfl]; decide), List.append_nil]

/-- Behind a run of characters stands what follows it. -/
theorem dropWhile_run {p : UInt8 → Bool} {s t : Bytes} (hs : ∀ c ∈ s, p c = true)
    (ht : ∀ c ∈ t.head?, p c = false) : (s ++ t).dropWhile p = t := by
  rw [List.dropWhile_append_of_pos hs]
  cases t with
  | nil => rfl
  | cons a t => rw [List.dropWhile_cons_of_neg (by rw [ht a rfl]; decide)]

/-! ## Numbers -/

/-- The value of a sum or a product of `int`s, which has none where it overflows. -/
def inInt (x : ℤ) : Option ℤ := if -2 ^ 31 ≤ x ∧ x < 2 ^ 31 then some x else none

/-- Within the bounds of an `int` a number is itself. -/
theorem inInt_of_lt {x : ℤ} (h : -2 ^ 31 ≤ x) (h' : x < 2 ^ 31) : inInt x = some x :=
  if_pos ⟨h, h'⟩

theorem inInt_eq_some_iff {x y : ℤ} : inInt x = some y ↔ (-2 ^ 31 ≤ x ∧ x < 2 ^ 31) ∧ x = y :=
  Option.ite_none_right_eq_some.trans (and_congr_right' Option.some_inj)

/-! ## Texts of digits -/

theorem map_digitVal_lt {s : Bytes} (h : ∀ c ∈ s, isDigit c = true) :
    ∀ d ∈ s.map digitVal, d < 10 := by
  intro d hd
  obtain ⟨c, hc, rfl⟩ := List.mem_map.mp hd
  exact digitVal_lt (h c hc)

/-- So many digits are below that power of ten. -/
theorem decVal_lt {s : Bytes} (h : ∀ c ∈ s, isDigit c = true) : decVal s < 10 ^ s.length := by
  have := Numeral.value_lt (by norm_num) (map_digitVal_lt h)
  rwa [List.length_map] at this

/-- A digit more. -/
theorem decVal_append_singleton (s : Bytes) (c : UInt8) :
    decVal (s ++ [c]) = decVal s * 10 + digitVal c := by
  rw [decVal, List.map_append, List.map_singleton, Numeral.value_append_singleton]
  rfl

theorem decVal_cons (c : UInt8) (s : Bytes) :
    decVal (c :: s) = digitVal c * 10 ^ s.length + decVal s := by
  rw [decVal, List.map_cons, Numeral.value_cons, List.length_map]
  rfl

/-- The first digits count by the length of the others. -/
theorem decVal_append (s t : Bytes) : decVal (s ++ t) = decVal s * 10 ^ t.length + decVal t := by
  rw [decVal, List.map_append, Numeral.value_append, List.length_map]
  rfl

/-- The leading digits of a number. -/
theorem decVal_take {s : Bytes} (h : ∀ c ∈ s, isDigit c = true) (k : ℕ) :
    decVal (s.take k) = decVal s / 10 ^ (s.length - k) := by
  have hlt := decVal_lt (s := s.drop k) fun c hc => h c (List.mem_of_mem_drop hc)
  have hsum := decVal_append (s.take k) (s.drop k)
  rw [List.take_append_drop] at hsum
  rw [List.length_drop] at hlt hsum
  rw [hsum, Nat.mul_comm, Nat.mul_add_div (Nat.pow_pos (by norm_num)), Nat.div_eq_of_lt hlt,
    Nat.add_zero]

/-- One digit of a number. -/
theorem digitVal_getD {s : Bytes} (h : ∀ c ∈ s, isDigit c = true) {k : ℕ} (hk : k < s.length) :
    digitVal (s.getD k 0) = decVal s / 10 ^ (s.length - (k + 1)) % 10 := by
  have hget : s.getD k 0 = s[k] := by
    rw [List.getD_eq_getElem?_getD, List.getElem?_eq_getElem hk, Option.getD_some]
  have hlt := digitVal_lt (h _ (List.getElem_mem hk))
  rw [← decVal_take h, List.take_succ_eq_append_getElem hk, decVal_append_singleton, hget]
  omega

/-- Digits are ordered as what they are worth. -/
theorem lt_iff_digitVal_lt {c d : UInt8} (hc : isDigit c = true) (hd : isDigit d = true) :
    c < d ↔ digitVal c < digitVal d := by
  rw [isDigit_iff] at hc hd
  rw [UInt8.lt_iff_toNat_lt, digitVal, digitVal]
  omega

theorem eq_iff_digitVal_eq {c d : UInt8} (hc : isDigit c = true) (hd : isDigit d = true) :
    c = d ↔ digitVal c = digitVal d := by
  rw [isDigit_iff] at hc hd
  rw [← UInt8.toNat_inj, digitVal, digitVal]
  omega

/-- And so are texts of them. -/
theorem lt_iff_map_digitVal_lt {s t : Bytes} (hs : ∀ c ∈ s, isDigit c = true)
    (ht : ∀ c ∈ t, isDigit c = true) : s < t ↔ s.map digitVal < t.map digitVal := by
  induction s generalizing t with
  | nil => cases t <;> simp
  | cons c s ih =>
    cases t with
    | nil => simp
    | cons d t =>
      have hc := hs c List.mem_cons_self
      have hd := ht d List.mem_cons_self
      rw [List.map_cons, List.map_cons, List.cons_lt_cons_iff, List.cons_lt_cons_iff,
        lt_iff_digitVal_lt hc hd, eq_iff_digitVal_eq hc hd,
        ih (fun x hx => hs x (List.mem_cons_of_mem _ hx))
          (fun x hx => ht x (List.mem_cons_of_mem _ hx))]

/-- Texts of digits of one length compare as the numbers they denote. -/
theorem lt_iff_decVal_lt {s t : Bytes} (hlen : s.length = t.length)
    (hs : ∀ c ∈ s, isDigit c = true) (ht : ∀ c ∈ t, isDigit c = true) :
    s < t ↔ decVal s < decVal t := by
  rw [decVal, decVal, Numeral.value_lt_value_iff (by norm_num) (by simpa using hlen)
    (map_digitVal_lt hs) (map_digitVal_lt ht), lt_iff_map_digitVal_lt hs ht]

/-! ## Printing: the `%d` conversions -/

/-- `%0<w>d`: the decimal text of `v` in at least `w` characters. -/
def fmtD0 (w : ℕ) (v : ℤ) : Bytes :=
  if v < 0 then 45 :: (Numeral.padded 10 (w - 1) v.natAbs).map digitChar
  else (Numeral.padded 10 w v.natAbs).map digitChar

/-- What `snprintf` leaves in a buffer of `size` bytes: the text, cut to make room
for the terminator. -/
def snprintf (size : ℕ) (text : Bytes) : Bytes := text.take (size - 1)

/-- A text that fits is not cut. -/
theorem snprintf_of_lt {size : ℕ} {text : Bytes} (h : text.length < size) :
    snprintf size text = text := by
  rw [snprintf, List.take_of_length_le (by omega)]

/-- A number that is not negative is printed by its digits, padded with zeros. -/
theorem fmtD0_natCast (w n : ℕ) : fmtD0 w n = (Numeral.padded 10 w n).map digitChar := by
  rw [fmtD0, if_neg (by omega), Int.natAbs_natCast]

/-- Only digits are printed for it. -/
theorem isDigit_of_mem_fmtD0 {w n : ℕ} {c : UInt8} (h : c ∈ fmtD0 w n) : isDigit c = true := by
  rw [fmtD0_natCast, List.mem_map] at h
  obtain ⟨d, hd, rfl⟩ := h
  exact isDigit_digitChar (Numeral.padded_lt_base (by norm_num) hd)

theorem fmtD0_ne_nil {w : ℕ} (hw : 0 < w) (n : ℕ) : fmtD0 w n ≠ [] := by
  rw [fmtD0_natCast]
  intro hnil
  have hlen := Numeral.le_length_padded 10 w n
  rw [List.map_eq_nil_iff.mp hnil, List.length_nil] at hlen
  omega

theorem map_digitVal_fmtD0 (w n : ℕ) : (fmtD0 w n).map digitVal = Numeral.padded 10 w n := by
  rw [fmtD0_natCast, List.map_map]
  refine (List.map_congr_left fun d hd => ?_).trans (List.map_id _)
  exact digitVal_digitChar (Numeral.padded_lt_base (by norm_num) hd)

/-- Reading a printed number back. -/
theorem decVal_fmtD0 (w n : ℕ) : decVal (fmtD0 w n) = n := by
  rw [decVal, map_digitVal_fmtD0, Numeral.value_padded]

/-- A number that fits the width has the width. -/
theorem length_fmtD0_eq {w n : ℕ} (h : n < 10 ^ w) : (fmtD0 w n).length = w := by
  rw [fmtD0_natCast, List.length_map, Numeral.length_padded_eq (by norm_num) h]

theorem length_fmtD0_le {w n k : ℕ} (hw : w ≤ k) (h : n < 10 ^ k) : (fmtD0 w n).length ≤ k := by
  rw [fmtD0_natCast, List.length_map]
  exact Numeral.length_padded_le (by norm_num) hw h

/-- Printing a text of digits at its own width gives the text back. -/
theorem fmtD0_decVal {s : Bytes} (h : ∀ c ∈ s, isDigit c = true) :
    fmtD0 s.length (decVal s) = s := by
  have hpad := Numeral.padded_value (by norm_num) (map_digitVal_lt h)
  rw [List.length_map] at hpad
  rw [fmtD0_natCast, decVal, hpad, List.map_map]
  refine (List.map_congr_left fun c hc => ?_).trans (List.map_id _)
  exact digitChar_digitVal (h c hc)

/-- A text of digits is the printed form of one number at its width. -/
theorem eq_fmtD0_iff {s : Bytes} (h : ∀ c ∈ s, isDigit c = true) (n : ℕ) :
    s = fmtD0 s.length n ↔ decVal s = n := by
  constructor
  · intro hs
    rw [hs, decVal_fmtD0]
  · intro hn
    rw [← hn, fmtD0_decVal h]

/-! ## Reading: `strtol` and `atoi` -/

/-- A value in `long`, clamped to its range as `strtol` does on overflow. -/
def clampLong (v : ℤ) : ℤ := max (-2 ^ 63) (min v (2 ^ 63 - 1))

/-- The sign `strtol` accepts in front of the digits. -/
def strtolSign : Bytes → Bool × Bytes
  | 45 :: s => (true, s)
  | 43 :: s => (false, s)
  | s => (false, s)

/-- `strtol(s, &end, 10)`: the value, and the text `end` points to. -/
def strtol (s : Bytes) : ℤ × Bytes :=
  let signed := strtolSign (s.dropWhile isSpace)
  let digits := signed.2.takeWhile isDigit
  if digits = [] then (0, s)
  else
    let v : ℤ := decVal digits
    (clampLong (if signed.1 then -v else v), signed.2.dropWhile isDigit)

/-- `atoi`: `strtol`, narrowed to `int`. -/
def atoi (s : Bytes) : Int32 := Int32.ofInt (strtol s).1

/-- A digit is no sign. -/
theorem strtolSign_of_isDigit {s : Bytes} {c : UInt8} (hc : isDigit c = true) :
    strtolSign (c :: s) = (false, c :: s) := by
  rw [strtolSign]
  · rintro t ⟨⟩
    exact absurd hc (by decide)
  · rintro t ⟨⟩
    exact absurd hc (by decide)

theorem isSpace_of_isDigit {c : UInt8} (hc : isDigit c = true) : isSpace c = false := by
  rw [isDigit_iff] at hc
  rw [isSpace, Bool.or_eq_false_iff, Bool.and_eq_false_iff]
  refine ⟨?_, Or.inr ?_⟩
  · rw [beq_eq_false_iff_ne]
    rintro rfl
    exact absurd hc.1 (by decide)
  · rw [decide_eq_false_iff_not, UInt8.le_iff_toNat_le, show (13 : UInt8).toNat = 13 from rfl]
    omega

/-- `strtol` on digits that another character, or the end of the text, follows. -/
theorem strtol_digits {ds t : Bytes} (hne : ds ≠ []) (hds : ∀ c ∈ ds, isDigit c = true)
    (ht : ∀ c ∈ t.head?, isDigit c = false) :
    strtol (ds ++ t) = (clampLong (decVal ds), t) := by
  obtain ⟨c, ds', rfl⟩ := List.exists_cons_of_ne_nil hne
  have hc := hds c List.mem_cons_self
  have hskip : (c :: ds' ++ t).dropWhile isSpace = c :: ds' ++ t := by
    rw [List.cons_append, List.dropWhile_cons_of_neg (by rw [isSpace_of_isDigit hc]; decide)]
  have hsign : strtolSign (c :: ds' ++ t) = (false, c :: ds' ++ t) := strtolSign_of_isDigit hc
  have htake := takeWhile_run hds ht
  have hdrop := dropWhile_run hds ht
  rw [strtol]
  simp only [hskip, hsign, htake, hdrop, if_neg hne]
  rfl

/-! ## How far `strtol` reads -/

/-- Where `strtol` stops: at the first character that is no part of a number, whether it has
found digits or not. -/
def strtolRest (s : Bytes) : Bytes := (strtolSign (s.dropWhile isSpace)).2.dropWhile isDigit

/-- How many characters `strtol` looks at, the one it stops at included. -/
def strtolRead (s : Bytes) : ℕ := s.length - (strtolRest s).length + 1

/-- A sign is looked for in front only. -/
theorem strtolSign_append {s : Bytes} (hs : s ≠ []) (t : Bytes) :
    strtolSign (s ++ t) = ((strtolSign s).1, (strtolSign s).2 ++ t) := by
  obtain ⟨c, s, rfl⟩ := List.exists_cons_of_ne_nil hs
  rw [List.cons_append]
  by_cases h₁ : c = 45
  · rw [h₁]
    rfl
  by_cases h₂ : c = 43
  · rw [h₂]
    rfl
  have hother : ∀ u : Bytes, strtolSign (c :: u) = (false, c :: u) := by
    intro u
    rw [strtolSign]
    · rintro v ⟨⟩
      exact h₁ rfl
    · rintro v ⟨⟩
      exact h₂ rfl
  rw [hother, hother]
  rfl

theorem length_strtolSign_le (s : Bytes) : (strtolSign s).2.length ≤ s.length := by
  unfold strtolSign
  split <;> simp

/-- What stands in front of the digits, when more text follows: the white space ends in `s`, or a
digit ends it. -/
theorem strtolSign_dropWhile_append {s t : Bytes}
    (h : s.dropWhile isSpace ≠ [] ∨ ∃ d u, t = d :: u ∧ isDigit d = true) :
    strtolSign ((s ++ t).dropWhile isSpace)
      = ((strtolSign (s.dropWhile isSpace)).1, (strtolSign (s.dropWhile isSpace)).2 ++ t) := by
  rw [List.dropWhile_append]
  by_cases hnil : s.dropWhile isSpace = []
  · obtain ⟨d, u, rfl, hd⟩ := h.resolve_left (not_not.mpr hnil)
    rw [hnil, List.isEmpty_nil, if_pos rfl,
      List.dropWhile_cons_of_neg (by rw [isSpace_of_isDigit hd]; decide)]
    exact strtolSign_of_isDigit hd
  · rw [if_neg (by simpa using hnil)]
    exact strtolSign_append hnil t

theorem ne_nil_of_strtolRest {s : Bytes} (h : strtolRest s ≠ []) :
    s.dropWhile isSpace ≠ [] := by
  intro hnil
  rw [strtolRest, hnil] at h
  exact h rfl

/-- `strtol` does not see what stands behind the character it stops at. -/
theorem strtol_append_of_rest {s : Bytes} (h : strtolRest s ≠ []) (t : Bytes) :
    (strtol (s ++ t)).1 = (strtol s).1 ∧ strtolRest (s ++ t) = strtolRest s ++ t := by
  have hsign := strtolSign_dropWhile_append (t := t) (Or.inl (ne_nil_of_strtolRest h))
  rw [strtolRest] at h
  unfold strtolRest strtol
  simp only [hsign]
  generalize (strtolSign (s.dropWhile isSpace)).1 = minus at *
  generalize (strtolSign (s.dropWhile isSpace)).2 = u at *
  have hdrop : (u ++ t).dropWhile isDigit = u.dropWhile isDigit ++ t := by
    rw [List.dropWhile_append, if_neg (by simpa using h)]
  have htake : (u ++ t).takeWhile isDigit = u.takeWhile isDigit := by
    rw [List.takeWhile_append, if_neg]
    intro hall
    have hlen := congrArg List.length (List.takeWhile_append_dropWhile (p := isDigit) (l := u))
    rw [List.length_append, hall, Nat.add_eq_left] at hlen
    exact h (List.eq_nil_of_length_eq_zero hlen)
  rw [hdrop, htake]
  refine ⟨?_, rfl⟩
  split_ifs <;> rfl

/-- Where it comes to the end of a text, it takes a digit behind it for the next of the number. -/
theorem strtol_append_digit {s : Bytes} (h : strtolRest s = []) (hlen : s.length ≤ 9) :
    ∃ (minus : Bool) (n : ℕ), ∀ d, isDigit d = true → ∀ t,
      (strtol (s ++ d :: 0 :: t)).1 = if minus then -(n * 10 + digitVal d : ℤ)
        else n * 10 + digitVal d := by
  have hdigits : ∀ c ∈ (strtolSign (s.dropWhile isSpace)).2, isDigit c = true :=
    List.dropWhile_eq_nil_iff.mp h
  have hle : (strtolSign (s.dropWhile isSpace)).2.length ≤ 9 :=
    (length_strtolSign_le _).trans ((List.length_dropWhile_le _ s).trans hlen)
  refine ⟨(strtolSign (s.dropWhile isSpace)).1,
    decVal (strtolSign (s.dropWhile isSpace)).2, fun d hd t => ?_⟩
  have hsign := strtolSign_dropWhile_append (s := s) (Or.inr ⟨d, 0 :: t, rfl, hd⟩)
  unfold strtol
  simp only [hsign]
  generalize (strtolSign (s.dropWhile isSpace)).1 = minus
  generalize (strtolSign (s.dropWhile isSpace)).2 = u at *
  have htake : (u ++ d :: 0 :: t).takeWhile isDigit = u ++ [d] := by
    rw [List.takeWhile_append_of_pos hdigits, List.takeWhile_cons_of_pos hd,
      List.takeWhile_cons_of_neg (by decide)]
  -- ten digits are far from the limits of a `long`: nothing is clamped
  have hlt := decVal_lt hdigits
  have hpow : 10 ^ u.length ≤ 10 ^ 9 := Nat.pow_le_pow_right (by norm_num) hle
  have hd' := digitVal_lt hd
  rw [htake, if_neg (by simp), decVal_append_singleton, clampLong]
  split_ifs
  · simp only
    push_cast
    omega
  · simp only
    push_cast
    omega

/-- `atoi` on at most nine digits is exact: the value fits `int`. -/
theorem atoi_digits {ds t : Bytes} (hne : ds ≠ []) (hds : ∀ c ∈ ds, isDigit c = true)
    (hlen : ds.length ≤ 9) (ht : ∀ c ∈ t.head?, isDigit c = false) :
    atoi (ds ++ t) = Int32.ofInt (decVal ds) := by
  have hlt : decVal ds < 10 ^ 9 :=
    lt_of_lt_of_le (decVal_lt hds) (Nat.pow_le_pow_right (by norm_num) hlen)
  rw [atoi, strtol_digits hne hds ht, clampLong]
  congr 1
  omega

end S4LibLite

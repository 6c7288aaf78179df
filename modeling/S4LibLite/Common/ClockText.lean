import S4LibLite.Common.TimeText
import Mathlib.Algebra.Order.Field.Rat
import Mathlib.Tactic.FieldSimp
import Mathlib.Tactic.Linarith

/-!
# Times of the market data as text (`s4time.cpp`)

The three formatters take a packed decimal number apart, `ms_to_str_r` a count of
milliseconds; all print the fraction of the second by `%d`.

* `Clock.readClock_text`, what the text of a time of day denotes;
* `Clock.shows_iff`, when that is the time of day, and texts compare as times do;
* `clockTexts_iff`, the four functions.
-/

namespace S4LibLite

/-! ## The formatters -/

/-- `sprintf(s, "%02d:%02d:%02d.%d", hh, mm, ss, ms)`. -/
def clockText (hh mm ss ms : ℤ) : Bytes :=
  fmtD0 2 hh ++ lit ":" ++ fmtD0 2 mm ++ lit ":" ++ fmtD0 2 ss ++ lit "." ++ fmtD0 1 ms

/-- The common body, for a second of `unit` parts. -/
def timeString (unit TransactTime : UInt64) : Bytes :=
  let ms := TransactTime % unit
  let ss := TransactTime % (unit * 100) / unit
  let mm := TransactTime % (unit * 100 * 100) / (unit * 100)
  let hh := TransactTime % (unit * 100 * 100 * 100) / (unit * 100 * 100)
  clockText hh.toNat mm.toNat ss.toNat ms.toNat

/-- `ssz_L2_timeString`. -/
def sszL2TimeString (TransactTime : UInt64) : Bytes := timeString 1000 TransactTime

/-- `ssh_L2_timeString`. -/
def sshL2TimeString (TransactTime : UInt64) : Bytes := timeString 100 TransactTime

/-- `ssh_L1Bin_timeString`. -/
def sshL1BinTimeString (TransactTime : UInt64) : Bytes := timeString 1000 TransactTime

/-- `ms_to_str_r`. -/
def msToStrR (ms : UInt64) : Bytes :=
  let utc : ℤ := (ms / 1000).toNat
  let ms' := (ms % 1000).toNat
  let utc := utc + 3600 * 8
  match offtime utc 0 with
  | none => lit "00:00:00.0"
  | some ltm => strftimeHMS ltm ++ lit "." ++ fmtD0 1 ms'

/-! ## Reading a time of day -/

/-- A number in front of a separator, and the text behind it. -/
def readNumber (sep : UInt8) (s : Bytes) : Option (ℕ × Bytes) :=
  match s.takeWhile isDigit, s.dropWhile isDigit with
  | d :: ds, c :: rest => if c = sep then some (decVal (d :: ds), rest) else none
  | _, _ => none

/-- The seconds a text denotes, read as `HH:MM:SS` with a decimal fraction. -/
def readClock (s : Bytes) : Option ℚ :=
  (readNumber 58 s).bind fun (hour, s) =>
    (readNumber 58 s).bind fun (minu, s) =>
      (readNumber 46 s).bind fun (sec, s) =>
        if s ≠ [] ∧ s.all isDigit = true then
          some (3600 * hour + 60 * minu + sec + decVal s / 10 ^ s.length)
        else none

/-- A printed number is read up to the separator. -/
theorem readNumber_fmtD0 {w : ℕ} (hw : 0 < w) (n : ℕ) {sep : UInt8} (hsep : isDigit sep = false)
    (rest : Bytes) : readNumber sep (fmtD0 w n ++ sep :: rest) = some (n, rest) := by
  have hdigits : ∀ c ∈ fmtD0 w n, isDigit c = true := fun _ hc => isDigit_of_mem_fmtD0 hc
  have hstop : ∀ c ∈ (sep :: rest).head?, isDigit c = false := by
    rintro c ⟨⟩
    exact hsep
  have htake := takeWhile_run hdigits hstop
  have hdrop := dropWhile_run hdigits hstop
  obtain ⟨d, ds, hds⟩ := List.exists_cons_of_ne_nil (fmtD0_ne_nil hw n)
  unfold readNumber
  rw [htake, hdrop, hds]
  simp only [if_true]
  rw [← hds, decVal_fmtD0]

/-! ## Times of day -/

/-- A time of day with `places` decimal places below the second. -/
structure Clock (places : ℕ) where
  hour : ℕ
  minu : ℕ
  sec : ℕ
  frac : ℕ
  hour_lt : hour < 24
  minu_lt : minu < 60
  sec_lt : sec < 60
  frac_lt : frac < 10 ^ places

namespace Clock

variable {places : ℕ}

/-- The seconds since midnight. -/
def time (c : Clock places) : ℚ :=
  3600 * c.hour + 60 * c.minu + c.sec + c.frac / 10 ^ places

/-- Its text, as all four functions print it. -/
def text (c : Clock places) : Bytes := clockText c.hour c.minu c.sec c.frac

/-- The fraction has no zero in front that `%d` would leave out. -/
def Full (c : Clock places) : Prop := c.frac = 0 ∨ 10 ^ places ≤ 10 * c.frac

/-- A text of the clock by its parts. -/
theorem text_eq (c : Clock places) :
    c.text = fmtD0 2 c.hour ++ 58 :: (fmtD0 2 c.minu ++ 58 :: (fmtD0 2 c.sec
      ++ 46 :: fmtD0 1 c.frac)) := by
  unfold text clockText
  rw [show lit ":" = [58] from rfl, show lit "." = [46] from rfl]
  simp only [List.append_assoc, List.cons_append, List.nil_append]

/-- What the text denotes: the fraction is read with the digits it is printed with. -/
theorem readClock_text (c : Clock places) :
    readClock c.text = some (3600 * c.hour + 60 * c.minu + c.sec
      + c.frac / 10 ^ (fmtD0 1 c.frac).length : ℚ) := by
  have hall : (fmtD0 1 c.frac).all isDigit = true :=
    List.all_eq_true.mpr fun _ hc => isDigit_of_mem_fmtD0 hc
  have hne : fmtD0 1 c.frac ≠ [] := fmtD0_ne_nil (by omega) _
  unfold readClock
  rw [text_eq]
  simp only [readNumber_fmtD0 (show 0 < 2 by omega) _ (show isDigit 58 = false by decide),
    readNumber_fmtD0 (show 0 < 2 by omega) _ (show isDigit 46 = false by decide),
    Option.bind_some]
  rw [if_pos ⟨hne, hall⟩, decVal_fmtD0]

/-- `%d` prints all decimal places of the fraction exactly where none is a zero in front. -/
theorem length_frac_eq_iff (c : Clock (places + 1)) :
    (fmtD0 1 c.frac).length = places + 1 ↔ 10 ^ (places + 1) ≤ 10 * c.frac ∨ places = 0 := by
  have hle := length_fmtD0_le (show 1 ≤ places + 1 by omega) c.frac_lt
  have hpow : 10 ^ (places + 1) ≤ 10 * c.frac ↔ 10 ^ places ≤ c.frac := by
    rw [Nat.pow_succ]
    omega
  rw [hpow]
  constructor
  · intro hlen
    by_contra hnot
    rw [not_or, not_le] at hnot
    have := length_fmtD0_le (show 1 ≤ places by omega) hnot.1
    omega
  · rintro (hfrac | rfl)
    · have hlt := decVal_lt (s := fmtD0 1 c.frac) fun _ hc => isDigit_of_mem_fmtD0 hc
      rw [decVal_fmtD0] at hlt
      have := (Nat.pow_lt_pow_iff_right (by norm_num)).mp (lt_of_le_of_lt hfrac hlt)
      omega
    · have hne := List.length_pos_of_ne_nil (fmtD0_ne_nil (w := 1) (by omega) c.frac)
      omega

/-- The text denotes the time of day exactly where the fraction is full. -/
theorem readClock_text_iff (c : Clock (places + 1)) :
    readClock c.text = some c.time ↔ c.Full := by
  have hlen := c.length_frac_eq_iff
  rw [readClock_text, Option.some.injEq, time, add_right_inj, Full]
  by_cases hzero : c.frac = 0
  · rw [hzero]
    simp
  · have hfrac : (c.frac : ℚ) ≠ 0 := Nat.cast_ne_zero.mpr hzero
    rw [div_eq_mul_inv, div_eq_mul_inv, mul_right_inj' hfrac, inv_inj,
      pow_right_inj₀ (by norm_num) (by norm_num), hlen]
    constructor
    · rintro (h | rfl)
      · exact Or.inr h
      · right
        show 10 ≤ 10 * c.frac
        omega
    · rintro (h | h)
      · exact absurd h hzero
      · exact Or.inl h

/-! ## Order -/

/-- Numbers of two digits are ordered as their texts. -/
theorem fmtD0_two_lt_iff {m n : ℕ} (hm : m < 100) (hn : n < 100) :
    fmtD0 2 m < fmtD0 2 n ↔ m < n := by
  rw [lt_iff_decVal_lt (by rw [length_fmtD0_eq hm, length_fmtD0_eq hn])
    (fun _ hc => isDigit_of_mem_fmtD0 hc) (fun _ hc => isDigit_of_mem_fmtD0 hc), decVal_fmtD0,
    decVal_fmtD0]

/-- Different numbers have different texts. -/
theorem fmtD0_inj {w m n : ℕ} : fmtD0 w m = fmtD0 w n ↔ m = n := by
  constructor
  · intro h
    rw [← decVal_fmtD0 w m, h, decVal_fmtD0]
  · rintro rfl
    rfl

/-- A printed number, by its first digit. -/
theorem fmtD0_cons {w : ℕ} (hw : 0 < w) (n : ℕ) :
    ∃ c rest, fmtD0 w n = c :: rest ∧ isDigit c = true ∧ (c = 48 → rest = [] → n = 0) := by
  obtain ⟨c, rest, heq⟩ := List.exists_cons_of_ne_nil (fmtD0_ne_nil hw n)
  refine ⟨c, rest, heq, isDigit_of_mem_fmtD0 (heq ▸ List.mem_cons_self), ?_⟩
  rintro rfl rfl
  rw [← decVal_fmtD0 w n, heq]
  rfl

theorem fmtD0_zero : fmtD0 1 (0 : ℕ) = [48] := by
  have hlen := length_fmtD0_eq (show 0 < 10 ^ 1 by omega)
  exact (List.eq_cons_of_length_one hlen).trans (by simp [fmtD0, Numeral.padded, digitChar])

/-- A printed zero stands in front of the texts of all other numbers. -/
theorem zero_lt_fmtD0_iff (n : ℕ) : fmtD0 1 (0 : ℕ) < fmtD0 1 n ↔ 0 < n := by
  obtain ⟨c, rest, heq, hc, hzero⟩ := fmtD0_cons (show 0 < 1 by omega) n
  constructor
  · intro hlt
    by_contra hn
    rw [Nat.eq_zero_of_not_pos hn] at hlt
    exact absurd hlt (List.lt_irrefl _)
  · intro hn
    rw [fmtD0_zero, heq, List.cons_lt_cons_iff]
    by_cases h48 : c = 48
    · have hrest : rest ≠ [] := fun hnil => hn.ne' (hzero h48 hnil)
      obtain ⟨d, ds, rfl⟩ := List.exists_cons_of_ne_nil hrest
      exact Or.inr ⟨h48.symm, List.nil_lt_cons d ds⟩
    · left
      rw [isDigit_iff] at hc
      rw [← UInt8.toNat_inj] at h48
      rw [UInt8.lt_iff_toNat_lt]
      exact lt_of_le_of_ne hc.1 (Ne.symm h48)

theorem not_fmtD0_lt_zero (n : ℕ) : ¬ fmtD0 1 n < fmtD0 1 (0 : ℕ) := by
  obtain ⟨c, rest, heq, hc, -⟩ := fmtD0_cons (show 0 < 1 by omega) n
  rw [isDigit_iff] at hc
  rw [fmtD0_zero, heq, List.cons_lt_cons_iff]
  rintro (hlt | ⟨-, hlt⟩)
  · rw [UInt8.lt_iff_toNat_lt] at hlt
    exact absurd hlt (by simpa using hc.1)
  · exact absurd hlt (List.not_lt_nil rest)

/-- Full fractions compare as numbers. -/
theorem fmtD0_frac_lt_iff {c d : Clock (places + 1)} (hc : c.Full) (hd : d.Full) :
    fmtD0 1 c.frac < fmtD0 1 d.frac ↔ c.frac < d.frac := by
  by_cases hzero : c.frac = 0
  · rw [hzero, zero_lt_fmtD0_iff]
  by_cases hzero' : d.frac = 0
  · rw [hzero']
    exact iff_of_false (not_fmtD0_lt_zero _) (Nat.not_lt_zero _)
  -- both are printed with all their places
  have hlen := c.length_frac_eq_iff.mpr (Or.inl (hc.resolve_left hzero))
  have hlen' := d.length_frac_eq_iff.mpr (Or.inl (hd.resolve_left hzero'))
  rw [lt_iff_decVal_lt (hlen.trans hlen'.symm) (fun _ h => isDigit_of_mem_fmtD0 h)
    (fun _ h => isDigit_of_mem_fmtD0 h), decVal_fmtD0, decVal_fmtD0]

/-- Texts with all places of the fraction are ordered part by part. -/
theorem text_lt_text_iff {c d : Clock (places + 1)} (hc : c.Full) (hd : d.Full) :
    c.text < d.text ↔ c.hour < d.hour ∨ c.hour = d.hour ∧ (c.minu < d.minu ∨ c.minu = d.minu ∧
      (c.sec < d.sec ∨ c.sec = d.sec ∧ c.frac < d.frac)) := by
  have := c.hour_lt
  have := d.hour_lt
  have := c.minu_lt
  have := d.minu_lt
  have := c.sec_lt
  have := d.sec_lt
  have hlen : ∀ {m n : ℕ}, m < 100 → n < 100 → (fmtD0 2 m).length = (fmtD0 2 n).length := by
    intro m n hm hn
    rw [length_fmtD0_eq hm, length_fmtD0_eq hn]
  rw [text_eq, text_eq, Numeral.append_lt_append_iff (hlen (by omega) (by omega)),
    List.cons_lt_cons_self, Numeral.append_lt_append_iff (hlen (by omega) (by omega)),
    List.cons_lt_cons_self, Numeral.append_lt_append_iff (hlen (by omega) (by omega)),
    List.cons_lt_cons_self, fmtD0_two_lt_iff (by omega) (by omega),
    fmtD0_two_lt_iff (by omega) (by omega), fmtD0_two_lt_iff (by omega) (by omega), fmtD0_inj,
    fmtD0_inj, fmtD0_inj, fmtD0_frac_lt_iff hc hd]

/-- And so are the times. -/
theorem time_lt_time_iff (c d : Clock places) :
    c.time < d.time ↔ c.hour < d.hour ∨ c.hour = d.hour ∧ (c.minu < d.minu ∨ c.minu = d.minu ∧
      (c.sec < d.sec ∨ c.sec = d.sec ∧ c.frac < d.frac)) := by
  have hparts : ∀ c : Clock places, c.time
      = (((3600 * c.hour + 60 * c.minu + c.sec) * 10 ^ places + c.frac : ℕ) : ℚ) / 10 ^ places := by
    intro c
    rw [time]
    push_cast
    field_simp
  rw [hparts c, hparts d, div_lt_div_iff_of_pos_right (by positivity), Nat.cast_lt,
    Numeral.mul_add_lt_mul_add_iff c.frac_lt d.frac_lt]
  have := c.minu_lt
  have := d.minu_lt
  have := c.sec_lt
  have := d.sec_lt
  omega

end Clock

/-! ## Timestamps -/

/-- What a formatter should do for two timestamps: each text denotes the time of day, and the
texts compare as the times of day do. -/
structure Shows (text : UInt64 → Bytes) (time : UInt64 → ℚ) (a b : UInt64) : Prop where
  fst : readClock (text a) = some (time a)
  snd : readClock (text b) = some (time b)
  order : text a < text b ↔ time a < time b

/-- Packed hours, minutes and seconds of a day, over `unit` parts of a second. What stands above
them, a date or nothing, is left open. -/
structure ValidStamp (unit : ℕ) (t : UInt64) : Prop where
  hour : t.toNat / (unit * 100 * 100) % 100 < 24
  minu : t.toNat / (unit * 100) % 100 < 60
  sec : t.toNat / unit % 100 < 60

/-- The seconds since midnight a packed time stands for. -/
def stampTime (unit : ℕ) (t : UInt64) : ℚ :=
  3600 * (t.toNat / (unit * 100 * 100) % 100 : ℕ) + 60 * (t.toNat / (unit * 100) % 100 : ℕ)
    + (t.toNat / unit % 100 : ℕ) + (t.toNat % unit : ℕ) / unit

/-- The seconds since midnight at UTC+8 of a count of milliseconds. -/
def utc8Time (ms : UInt64) : ℚ := ((ms.toNat + 28800000) % 86400000 : ℕ) / 1000

/-- The fraction of a second is zero or at least a tenth. -/
def FullFraction (unit : ℕ) (t : UInt64) : Prop :=
  t.toNat % unit = 0 ∨ unit ≤ 10 * (t.toNat % unit)

/-- **Where the fractions are full, and only there**, times of day are shown. -/
theorem shows_iff {text : UInt64 → Bytes} {time : UInt64 → ℚ} {a b : UInt64} {places : ℕ}
    {c d : Clock (places + 1)} (hc : text a = c.text ∧ time a = c.time)
    (hd : text b = d.text ∧ time b = d.time) : Shows text time a b ↔ c.Full ∧ d.Full := by
  constructor
  · intro h
    have hfst := h.fst
    have hsnd := h.snd
    rw [hc.1, hc.2, c.readClock_text_iff] at hfst
    rw [hd.1, hd.2, d.readClock_text_iff] at hsnd
    exact ⟨hfst, hsnd⟩
  · rintro ⟨hfull, hfull'⟩
    refine ⟨?_, ?_, ?_⟩
    · rw [hc.1, hc.2, c.readClock_text_iff]
      exact hfull
    · rw [hd.1, hd.2, d.readClock_text_iff]
      exact hfull'
    · rw [hc.1, hc.2, hd.1, hd.2, Clock.text_lt_text_iff hfull hfull', Clock.time_lt_time_iff]

/-- The time of day in a packed time. -/
def stampClock (places : ℕ) (t : UInt64) (h : ValidStamp (10 ^ places) t) : Clock places where
  hour := t.toNat / (10 ^ places * 100 * 100) % 100
  minu := t.toNat / (10 ^ places * 100) % 100
  sec := t.toNat / 10 ^ places % 100
  frac := t.toNat % 10 ^ places
  hour_lt := h.hour
  minu_lt := h.minu
  sec_lt := h.sec
  frac_lt := Nat.mod_lt _ (by positivity)

theorem stampTime_eq {places : ℕ} {t : UInt64} (h : ValidStamp (10 ^ places) t) :
    stampTime (10 ^ places) t = (stampClock places t h).time := by
  unfold stampTime stampClock Clock.time
  push_cast
  rfl

/-- The body takes the fields apart. -/
theorem timeString_eq {places : ℕ} {unit t : UInt64} (hunit : unit.toNat = 10 ^ places)
    (hfit : 10 ^ places * 1000000 < 2 ^ 64) (h : ValidStamp (10 ^ places) t) :
    timeString unit t = (stampClock places t h).text := by
  have hmul : ∀ u : UInt64, u.toNat * 100 < 2 ^ 64 → (u * 100).toNat = u.toNat * 100 := by
    intro u hu
    rw [UInt64.toNat_mul]
    exact Nat.mod_eq_of_lt hu
  have h1 := hmul unit (by omega)
  have h2 := hmul (unit * 100) (by omega)
  have h3 := hmul (unit * 100 * 100) (by omega)
  unfold timeString stampClock Clock.text
  simp only [UInt64.toNat_div, UInt64.toNat_mod, h1, h2, h3, hunit, Nat.mod_mul_right_div_self]

theorem timeString_shows_iff (unit : ℕ) {unit64 : UInt64} (hunit64 : unit64.toNat = unit)
    {places : ℕ} (hunit : unit = 10 ^ (places + 1)) (hfit : unit * 1000000 < 2 ^ 64)
    {a b : UInt64} (ha : ValidStamp unit a) (hb : ValidStamp unit b) :
    Shows (timeString unit64) (stampTime unit) a b ↔ FullFraction unit a ∧ FullFraction unit b := by
  subst hunit
  exact shows_iff ⟨timeString_eq hunit64 hfit ha, stampTime_eq ha⟩
    ⟨timeString_eq hunit64 hfit hb, stampTime_eq hb⟩

/-- The time of day at UTC+8. -/
def utc8Clock (ms : UInt64) : Clock 3 where
  hour := (ms.toNat / 1000 + 28800) % 86400 / 3600
  minu := (ms.toNat / 1000 + 28800) % 3600 / 60
  sec := (ms.toNat / 1000 + 28800) % 60
  frac := ms.toNat % 1000
  hour_lt := by omega
  minu_lt := by omega
  sec_lt := by omega
  frac_lt := by omega

theorem utc8Time_eq (ms : UInt64) : utc8Time ms = (utc8Clock ms).time := by
  have hms : (ms.toNat + 28800000) % 86400000 = (3600 * ((ms.toNat / 1000 + 28800) % 86400 / 3600)
      + 60 * ((ms.toNat / 1000 + 28800) % 3600 / 60) + (ms.toNat / 1000 + 28800) % 60) * 1000
      + ms.toNat % 1000 := by omega
  unfold utc8Time utc8Clock Clock.time
  rw [hms]
  push_cast
  ring

/-- Every count of milliseconds has a year that is an `int`. -/
theorem msToStrR_eq (ms : UInt64) : msToStrR ms = (utc8Clock ms).text := by
  have hlt := ms.toNat_lt
  have hlow : 86400 * Calendar.daysBeforeYear (1900 - 2 ^ 31) ≤ 0 := by decide
  have hhigh : 2 ^ 55 ≤ 86400 * Calendar.daysBeforeYear (1900 + 2 ^ 31) := by decide
  -- 2^64 milliseconds are less than 2^55 seconds, whose year is an `int`
  obtain ⟨ltm, hltm⟩ : ∃ ltm, offtime (ms.toNat / 1000 + 3600 * 8 : ℤ) 0 = some ltm :=
    offtime_isSome (by omega) (by omega)
  obtain ⟨y, m, d, hvalid, hsecs⟩ := offtime_valid hltm
  have hhour := hvalid.hour
  have hmin := hvalid.min
  have hsec := hvalid.sec
  unfold Tm.secs at hsecs
  -- what the day number leaves of the seconds is the time of day
  have hdays : (ms.toNat / 1000 + 28800 : ℤ) - 86400 * Calendar.dayNumber y m d
      = 3600 * ltm.tmHour + 60 * ltm.tmMin + ltm.tmSec := by omega
  have h1 : ltm.tmHour = ((ms.toNat / 1000 + 28800) % 86400 / 3600 : ℕ) := by omega
  have h2 : ltm.tmMin = ((ms.toNat / 1000 + 28800) % 3600 / 60 : ℕ) := by omega
  have h3 : ltm.tmSec = ((ms.toNat / 1000 + 28800) % 60 : ℕ) := by omega
  have hunit : (1000 : UInt64).toNat = 1000 := rfl
  have hutc : ((ms / 1000).toNat : ℤ) = ms.toNat / 1000 := by
    rw [UInt64.toNat_div, Int.natCast_ediv, hunit, Nat.cast_ofNat]
  rw [msToStrR, hutc, hltm]
  simp only
  unfold strftimeHMS utc8Clock Clock.text clockText
  rw [h1, h2, h3, UInt64.toNat_mod, hunit]

/-- **The times are shown** where no zero stands in front in the fraction. -/
theorem clockTexts_iff (a b : UInt64) :
    (ValidStamp 1000 a → ValidStamp 1000 b →
        (Shows sszL2TimeString (stampTime 1000) a b ↔ FullFraction 1000 a ∧ FullFraction 1000 b)) ∧
      (ValidStamp 100 a → ValidStamp 100 b →
        (Shows sshL2TimeString (stampTime 100) a b ↔ FullFraction 100 a ∧ FullFraction 100 b)) ∧
      (ValidStamp 1000 a → ValidStamp 1000 b →
        (Shows sshL1BinTimeString (stampTime 1000) a b ↔
          FullFraction 1000 a ∧ FullFraction 1000 b)) ∧
      (Shows msToStrR utc8Time a b ↔ FullFraction 1000 a ∧ FullFraction 1000 b) := by
  refine ⟨fun ha hb => ?_, fun ha hb => ?_, fun ha hb => ?_, ?_⟩
  · exact timeString_shows_iff 1000 rfl (show 1000 = 10 ^ (2 + 1) by norm_num) (by norm_num) ha hb
  · exact timeString_shows_iff 100 rfl (show 100 = 10 ^ (1 + 1) by norm_num) (by norm_num) ha hb
  · exact timeString_shows_iff 1000 rfl (show 1000 = 10 ^ (2 + 1) by norm_num) (by norm_num) ha hb
  · exact shows_iff ⟨msToStrR_eq a, utc8Time_eq a⟩ ⟨msToStrR_eq b, utc8Time_eq b⟩

/-- Half past two in the afternoon, 25 seconds and a half. -/
theorem clockTexts_iff_14302550 :
    readClock (sshL2TimeString 14302550) = some (stampTime 100 14302550) :=
  (((clockTexts_iff 14302550 14302550).2.1 ⟨by decide, by decide, by decide⟩
    ⟨by decide, by decide, by decide⟩).mpr ⟨Or.inr (by decide), Or.inr (by decide)⟩).fst

/-- Six hundredths of a second are shown as six tenths. -/
theorem clockTexts_14302506 : ¬ ((∀ a b, ValidStamp 1000 a → ValidStamp 1000 b →
        Shows sszL2TimeString (stampTime 1000) a b) ∧
      (∀ a b, ValidStamp 100 a → ValidStamp 100 b → Shows sshL2TimeString (stampTime 100) a b) ∧
      (∀ a b, ValidStamp 1000 a → ValidStamp 1000 b →
        Shows sshL1BinTimeString (stampTime 1000) a b) ∧
      ∀ a b, Shows msToStrR utc8Time a b) := by
  intro hall
  have hvalid : ValidStamp 100 14302506 := ⟨by decide, by decide, by decide⟩
  have hshows := (hall.2.1 14302506 14302506 hvalid hvalid).fst
  have htext : sshL2TimeString 14302506 = lit "14:30:25.6" := by decide
  have hclock : lit "14:30:25.6"
      = (⟨14, 30, 25, 6, by omega, by omega, by omega, by omega⟩ : Clock 2).text := by decide
  have hlen : (fmtD0 1 (6 : ℕ)).length = 1 := by decide
  rw [htext, hclock, Clock.readClock_text, hlen, Option.some.injEq] at hshows
  unfold stampTime at hshows
  rw [show (14302506 : UInt64).toNat = 14302506 from rfl] at hshows
  norm_num at hshows

end S4LibLite

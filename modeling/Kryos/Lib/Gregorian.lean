import Mathlib.Data.Int.Basic
import Mathlib.Order.Basic
import Mathlib.Tactic.Ext
import Mathlib.Tactic.IntervalCases

/-!
# The proleptic Gregorian calendar

Dates over all integer years, the date that follows a date, and the number of days between dates.
Nothing here is specific to one program.

## Main definitions

* `Gregorian.Date` — a year, a month and a day that the month has
* `Gregorian.Date.next` — the following day
* `Gregorian.dayNumber` — days since 1970-01-01
* `Gregorian.epochSeconds` — seconds since the beginning of 1970-01-01

## Main results

* `Gregorian.Date.dayNumber_next` — the day number counts the days
* `Gregorian.dayNumber_injective`, `Gregorian.epochSeconds_injective`
* `Gregorian.dayNumber_eq_march` — the day number by cycles of 400 years that begin on 1 March
* `Gregorian.exists_cycleDay`, `Gregorian.yearOfCycle_eq` — a day of the cycle as century, four-year
  group, year and day, and the quotient that recovers its year
* `Gregorian.isDate_of_cycleDay` — the month and the day that belong to it are a date
-/

namespace Gregorian

/-! ## Dates -/

def Leap (y : ℤ) : Prop := 4 ∣ y ∧ (100 ∣ y → 400 ∣ y)

instance (y : ℤ) : Decidable (Leap y) := inferInstanceAs (Decidable (_ ∧ _))

def daysInMonth (y m : ℤ) : ℤ :=
  if m = 2 then if Leap y then 29 else 28
  else if m = 4 ∨ m = 6 ∨ m = 9 ∨ m = 11 then 30 else 31

/-- `y`-`m`-`d` is a date of the calendar. -/
def IsDate (y m d : ℤ) : Prop := 1 ≤ m ∧ m ≤ 12 ∧ 1 ≤ d ∧ d ≤ daysInMonth y m

instance (y m d : ℤ) : Decidable (IsDate y m d) := inferInstanceAs (Decidable (_ ∧ _))

@[ext]
structure Date where
  year : ℤ
  month : ℤ
  day : ℤ
  isDate : IsDate year month day

theorem daysInMonth_le (y m : ℤ) : daysInMonth y m ≤ 31 := by
  rw [daysInMonth]
  split_ifs <;> decide

theorem le_daysInMonth (y m : ℤ) : 28 ≤ daysInMonth y m := by
  rw [daysInMonth]
  split_ifs <;> decide

theorem isDate_one {y m : ℤ} (h : 1 ≤ m) (h' : m ≤ 12) : IsDate y m 1 :=
  ⟨h, h', Int.le_refl 1, Int.le_trans (by decide) (le_daysInMonth y m)⟩

/-- The date of the following day. -/
def Date.next (t : Date) : Date :=
  if h : t.day < daysInMonth t.year t.month then
    ⟨t.year, t.month, t.day + 1, t.isDate.1, t.isDate.2.1, Int.le_add_one t.isDate.2.2.1, h⟩
  else if h : t.month < 12 then
    ⟨t.year, t.month + 1, 1, isDate_one (Int.le_add_one t.isDate.1) h⟩
  else ⟨t.year + 1, 1, 1, isDate_one (Int.le_refl 1) (by decide)⟩

/-! ## Counting days -/

/-- Days of the years before `y`, counted from the beginning of year 1. -/
def daysBeforeYear (y : ℤ) : ℤ := 365 * (y - 1) + (y - 1) / 4 - (y - 1) / 100 + (y - 1) / 400

/-- Days of year `y` before month `m`. -/
def daysBeforeMonth (y m : ℤ) : ℤ :=
  (367 * m - 362) / 12 - if m ≤ 2 then 0 else if Leap y then 1 else 2

theorem daysBeforeMonth_one (y : ℤ) : daysBeforeMonth y 1 = 0 := by simp [daysBeforeMonth]

theorem daysBeforeMonth_succ (y : ℤ) {m : ℤ} (h : 1 ≤ m) (h' : m < 12) :
    daysBeforeMonth y (m + 1) = daysBeforeMonth y m + daysInMonth y m := by
  simp only [daysBeforeMonth, daysInMonth]
  by_cases hy : Leap y <;> simp only [hy] <;> interval_cases m <;> decide

/-- The days before a month are over when a later month of the year begins. -/
theorem daysBeforeMonth_le (y : ℤ) {m m' : ℤ} (h : 1 ≤ m) (hlt : m < m') (h' : m' ≤ 12) :
    daysBeforeMonth y m + daysInMonth y m ≤ daysBeforeMonth y m' := by
  induction m', hlt using Int.leInduction with
  | base => exact (daysBeforeMonth_succ y h (by omega)).ge
  | succ k hk ih =>
    have hsucc := daysBeforeMonth_succ y (m := k) (by omega) (by omega)
    have hlen := le_daysInMonth y k
    have hstep := ih (by omega)
    omega

theorem daysBeforeYear_succ (y : ℤ) :
    daysBeforeYear (y + 1) = daysBeforeYear y + (daysBeforeMonth y 12 + daysInMonth y 12) := by
  simp only [daysBeforeYear, daysBeforeMonth, daysInMonth, Leap]
  split_ifs <;> omega

def daysInYear (y : ℤ) : ℤ := if Leap y then 366 else 365

theorem daysBeforeYear_add_daysInYear (y : ℤ) :
    daysBeforeYear y + daysInYear y = daysBeforeYear (y + 1) := by
  simp only [daysBeforeYear, daysInYear, Leap]
  split_ifs <;> omega

theorem daysBeforeYear_mono {y y' : ℤ} (h : y ≤ y') : daysBeforeYear y ≤ daysBeforeYear y' := by
  simp only [daysBeforeYear]
  omega

/-- A cycle of 400 years has the same length wherever it begins. -/
theorem daysBeforeYear_add_cycles (y k : ℤ) :
    daysBeforeYear (y + 400 * k) = daysBeforeYear y + 146097 * k := by
  simp only [daysBeforeYear]
  omega

/-- Days from 1970-01-01 to the date, negative before it. -/
def dayNumber (y m d : ℤ) : ℤ := daysBeforeYear y + daysBeforeMonth y m + d - 719163

namespace Date

def dayNumber (t : Date) : ℤ := Gregorian.dayNumber t.year t.month t.day

theorem dayNumber_next (t : Date) : t.next.dayNumber = t.dayNumber + 1 := by
  obtain ⟨y, m, d, hm, hm', hd, hd'⟩ := t
  simp only [next]
  split_ifs with hday hmonth
  · simp only [dayNumber, Gregorian.dayNumber]
    omega
  · have hsucc := daysBeforeMonth_succ y hm hmonth
    simp only [dayNumber, Gregorian.dayNumber]
    omega
  · obtain rfl : m = 12 := by omega
    have hsucc := daysBeforeYear_succ y
    have hone := daysBeforeMonth_one (y + 1)
    simp only [dayNumber, Gregorian.dayNumber]
    omega

end Date

/-- A date is a day of its year. -/
theorem dayOfYear_bounds {y m d : ℤ} (h : IsDate y m d) :
    0 ≤ daysBeforeMonth y m + (d - 1) ∧ daysBeforeMonth y m + (d - 1) < daysInYear y := by
  obtain ⟨hm, hm', hd, hd'⟩ := h
  have hyear := daysBeforeYear_add_daysInYear y
  have hsucc := daysBeforeYear_succ y
  have hone := daysBeforeMonth_one y
  constructor
  · obtain rfl | hlt := hm.eq_or_lt
    · omega
    · have hle := daysBeforeMonth_le y (Int.le_refl 1) hlt hm'
      have hlen := le_daysInMonth y 1
      omega
  · obtain rfl | hlt := hm'.eq_or_lt
    · omega
    · have hle := daysBeforeMonth_le y hm hlt (Int.le_refl 12)
      have hlen := le_daysInMonth y 12
      omega

/-- A date of an earlier year has the smaller day number. -/
theorem dayNumber_lt_of_year_lt {y y' m m' d d' : ℤ} (h : IsDate y m d) (h' : IsDate y' m' d')
    (hlt : y < y') : dayNumber y m d < dayNumber y' m' d' := by
  have hday := (dayOfYear_bounds h).2
  have hday' := (dayOfYear_bounds h').1
  have hyear := daysBeforeYear_add_daysInYear y
  have hmono := daysBeforeYear_mono (show y + 1 ≤ y' from hlt)
  simp only [dayNumber]
  omega

theorem dayNumber_lt_of_month_lt {y m m' d d' : ℤ} (h : IsDate y m d) (h' : IsDate y m' d')
    (hlt : m < m') : dayNumber y m d < dayNumber y m' d' := by
  have hmono := daysBeforeMonth_le y h.1 hlt h'.2.1
  obtain ⟨-, -, -, hd⟩ := h
  obtain ⟨-, -, hd', -⟩ := h'
  simp only [dayNumber]
  omega

theorem dayNumber_injective {y y' m m' d d' : ℤ} (h : IsDate y m d) (h' : IsDate y' m' d')
    (heq : dayNumber y m d = dayNumber y' m' d') : y = y' ∧ m = m' ∧ d = d' := by
  obtain hlt | rfl | hlt := lt_trichotomy y y'
  · exact absurd heq (dayNumber_lt_of_year_lt h h' hlt).ne
  · obtain hlt | rfl | hlt := lt_trichotomy m m'
    · exact absurd heq (dayNumber_lt_of_month_lt h h' hlt).ne
    · exact ⟨rfl, rfl, by simpa [dayNumber] using heq⟩
    · exact absurd heq (dayNumber_lt_of_month_lt h' h hlt).ne'
  · exact absurd heq (dayNumber_lt_of_year_lt h' h hlt).ne'

/-! ## Times of a day -/

def IsTime (hour minute second : ℤ) : Prop :=
  (0 ≤ hour ∧ hour < 24) ∧ (0 ≤ minute ∧ minute < 60) ∧ 0 ≤ second ∧ second < 60

instance (hour minute second : ℤ) : Decidable (IsTime hour minute second) :=
  inferInstanceAs (Decidable (_ ∧ _))

/-- Seconds from the beginning of 1970-01-01 to that time of that date. -/
def epochSeconds (y m d hour minute second : ℤ) : ℤ :=
  dayNumber y m d * 86400 + hour * 3600 + minute * 60 + second

/-- The parts of a date and time are determined by the number of seconds. -/
theorem epochSeconds_injective {y y' m m' d d' h h' mi mi' s s' : ℤ} (hd : IsDate y m d)
    (hd' : IsDate y' m' d') (ht : IsTime h mi s) (ht' : IsTime h' mi' s')
    (heq : epochSeconds y m d h mi s = epochSeconds y' m' d' h' mi' s') :
    (y = y' ∧ m = m' ∧ d = d') ∧ h = h' ∧ mi = mi' ∧ s = s' := by
  obtain ⟨hh, hmi, hs⟩ := ht
  obtain ⟨hh', hmi', hs'⟩ := ht'
  simp only [epochSeconds] at heq
  exact ⟨dayNumber_injective hd hd' (by omega), by omega, by omega, by omega⟩

/-! ## Years that begin on 1 March -/

/-- The year that begins on 1 March and ends with the leap day. -/
def marchYear (y m : ℤ) : ℤ := if m ≤ 2 then y - 1 else y

theorem marchYear_civilYear (y m : ℤ) : marchYear (if m ≤ 2 then y + 1 else y) m = y := by
  rw [marchYear]
  split_ifs <;> omega

/-- The month counted from March. -/
def marchMonth (m : ℤ) : ℤ := if m ≤ 2 then m + 9 else m - 3

/-- Days of the cycle before the year. -/
def daysBeforeYearOfCycle (yoe : ℤ) : ℤ := yoe * 365 + yoe / 4 - yoe / 100

/-- The day number from the cycle, the year of the cycle and the month counted from March. -/
theorem dayNumber_eq_march (y d : ℤ) {m era yoe : ℤ} (h : 1 ≤ m) (h' : m ≤ 12)
    (hyoe : marchYear y m = yoe + era * 400) (hyoe' : 0 ≤ yoe ∧ yoe < 400) :
    dayNumber y m d = era * 146097 +
      (daysBeforeYearOfCycle yoe + ((153 * marchMonth m + 2) / 5 + (d - 1))) - 719468 := by
  have hmonth : (153 * marchMonth m + 2) / 5 =
      daysBeforeMonth y m + if m ≤ 2 then 306 else if Leap y then -60 else -59 := by
    simp only [marchMonth, daysBeforeMonth]
    by_cases hy : Leap y <;> simp only [hy] <;> interval_cases m <;> rfl
  have hyear : era * 146097 + daysBeforeYearOfCycle yoe =
      daysBeforeYear y + 306 - (if m ≤ 2 then 306 else if Leap y then -60 else -59) := by
    simp only [marchYear, daysBeforeYear, daysBeforeYearOfCycle, Leap] at *
    split_ifs at * <;> omega
  simp only [dayNumber]
  omega

/-! ## The cycle of 400 years -/

/-- A day of a cycle that begins on 1 March: the century `a`, the four-year group `b` in it, the
year `c` in the group and the day of that year. -/
structure CycleDay (a b c doy : ℤ) : Prop where
  century : 0 ≤ a ∧ a ≤ 3
  group : 0 ≤ b ∧ b ≤ 24
  year : 0 ≤ c ∧ c ≤ 3
  day : 0 ≤ doy ∧ doy ≤ 365
  /-- only a leap year has the day 365 -/
  leap : doy = 365 → c = 3 ∧ (b = 24 → a = 3)

theorem exists_cycleDay {doe : ℤ} (h0 : 0 ≤ doe) (h1 : doe < 146097) :
    ∃ a b c doy, CycleDay a b c doy ∧ doe = 36524 * a + 1461 * b + 365 * c + doy := by
  obtain ⟨a, ha⟩ : ∃ a, a = min 3 (doe / 36524) := ⟨_, rfl⟩
  obtain ⟨b, hb⟩ : ∃ b, b = min 24 ((doe - 36524 * a) / 1461) := ⟨_, rfl⟩
  obtain ⟨c, hc⟩ : ∃ c, c = min 3 ((doe - 36524 * a - 1461 * b) / 365) := ⟨_, rfl⟩
  refine ⟨a, b, c, doe - 36524 * a - 1461 * b - 365 * c, ⟨?_, ?_, ?_, ?_, ?_⟩, ?_⟩ <;> omega

/-- The year of a day of the cycle as one quotient: the corrections take out the leap days. -/
theorem yearOfCycle_eq {a b c doy doe : ℤ} (h : CycleDay a b c doy)
    (hdoe : doe = 36524 * a + 1461 * b + 365 * c + doy) :
    (doe - doe / 1460 + doe / 36524 - doe / 146096) / 365 = 100 * a + 4 * b + c := by
  obtain ⟨⟨ha, ha'⟩, ⟨hb, hb'⟩, ⟨hc, hc'⟩, ⟨hd, hd'⟩, hleap⟩ := h
  by_cases hlast : doe = 146096
  · subst hlast
    omega
  have hcentury : doe / 36524 = a := by omega
  have hcycle : doe / 146096 = 0 := by omega
  have hgroup : doe / 1460 = 25 * a + b + (24 * a + b + 365 * c + doy) / 1460 := by omega
  rw [hcentury, hcycle, hgroup]
  omega

theorem yearOfCycle_bounds {a b c doy : ℤ} (h : CycleDay a b c doy) :
    0 ≤ 100 * a + 4 * b + c ∧ 100 * a + 4 * b + c < 400 := by
  obtain ⟨⟨ha, ha'⟩, ⟨hb, hb'⟩, ⟨hc, hc'⟩, -, -⟩ := h
  omega

theorem doe_sub_daysBeforeYearOfCycle {a b c doy doe : ℤ} (h : CycleDay a b c doy)
    (hdoe : doe = 36524 * a + 1461 * b + 365 * c + doy) :
    doe - daysBeforeYearOfCycle (100 * a + 4 * b + c) = doy := by
  obtain ⟨⟨ha, ha'⟩, ⟨hb, hb'⟩, ⟨hc, hc'⟩, -, -⟩ := h
  have hgroup : (100 * a + 4 * b + c) / 4 = 25 * a + b := by omega
  have hcentury : (100 * a + 4 * b + c) / 100 = a := by omega
  rw [daysBeforeYearOfCycle, hgroup, hcentury]
  omega

/-- The month of a day of a year that begins on 1 March, counted from March. -/
def marchMonthOfDay (doy : ℤ) : ℤ := (5 * doy + 2) / 153

def monthOfDay (doy : ℤ) : ℤ :=
  if marchMonthOfDay doy < 10 then marchMonthOfDay doy + 3 else marchMonthOfDay doy - 9

def dayOfDay (doy : ℤ) : ℤ := doy - (153 * marchMonthOfDay doy + 2) / 5 + 1

theorem marchMonth_monthOfDay {doy : ℤ} (h : 0 ≤ doy) (h' : doy ≤ 365) :
    marchMonth (monthOfDay doy) = marchMonthOfDay doy ∧
      1 ≤ monthOfDay doy ∧ monthOfDay doy ≤ 12 := by
  simp only [marchMonth, monthOfDay, marchMonthOfDay]
  split_ifs <;> omega

theorem isDate_of_cycleDay {a b c doy : ℤ} (h : CycleDay a b c doy) {y era : ℤ}
    (hy : marchYear y (monthOfDay doy) = 100 * a + 4 * b + c + era * 400) :
    IsDate y (monthOfDay doy) (dayOfDay doy) := by
  obtain ⟨⟨ha, ha'⟩, ⟨hb, hb'⟩, ⟨hc, hc'⟩, ⟨hd, hd'⟩, hleap⟩ := h
  refine ⟨(marchMonth_monthOfDay hd hd').2.1, (marchMonth_monthOfDay hd hd').2.2, ?_, ?_⟩
  · simp only [dayOfDay, marchMonthOfDay]
    omega
  have hdoy : doy = 365 → Leap y := by
    rintro rfl
    obtain ⟨rfl, hlast⟩ := hleap rfl
    have hy' : y = 100 * a + 4 * b + 4 + era * 400 := by
      rw [show marchYear y (monthOfDay 365) = y - 1 from rfl] at hy
      omega
    refine ⟨by omega, fun hcentury => ?_⟩
    have hb24 : b = 24 := by omega
    have ha3 := hlast hb24
    omega
  have hfebruary : doy - 336 ≤ daysInMonth y 2 := by
    by_cases hy : Leap y
    · simp only [daysInMonth, if_pos hy]
      omega
    · have hne := mt hdoy hy
      simp only [daysInMonth, if_neg hy]
      omega
  have hmp : 153 * marchMonthOfDay doy ≤ 5 * doy + 2 ∧
      5 * doy + 2 < 153 * marchMonthOfDay doy + 153 := by
    simp only [marchMonthOfDay]
    omega
  simp only [dayOfDay, monthOfDay]
  generalize marchMonthOfDay doy = mp at hmp
  obtain rfl | ⟨hlo, hhi⟩ : mp = 11 ∨ 0 ≤ mp ∧ mp ≤ 10 := by omega
  · exact (Int.le_of_eq (by omega)).trans hfebruary
  · interval_cases mp <;> norm_num [daysInMonth] <;> omega

end Gregorian

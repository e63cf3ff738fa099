import Kryos.Lib.ExactWord
import Kryos.Lib.Gregorian

/-!
# Dates and times of the standard library

Conversion between seconds since the Unix epoch and the parts of a UTC date and time, in the
wrapping 64-bit arithmetic of a release build.

## Main results

* `Datetime.denotes_civilFromDays` — `civil_from_days` returns the date with that day number
* `Datetime.componentsUtc_exact` — the components of an instant stand for it
* `Datetime.toInt_kryosTimeFromYmdhmsUtc` — the way back, although the sum may overflow in between
* `Datetime.calendar_bijection_iff` — `kryos_time_from_ymdhms_utc` checks the month and the day only
  against 12 and 31
-/

namespace Kryos.Stdlib.Datetime

open ExactWord Gregorian

/-! ## The conversions -/

/-- `x as i64` of a `u32`. -/
def asI64 (x : UInt32) : Int64 := x.toUInt64.toInt64

/-- `x as u32` of an `i64`. -/
def asU32 (x : Int64) : UInt32 := x.toUInt64.toUInt32

def daysFromCivil (y : Int64) (m d : UInt32) : Int64 :=
  let y := if m ≤ 2 then y - 1 else y
  let era := (if y ≥ 0 then y else y - 399) / 400
  let yoe := y - era * 400
  let doy := (153 * asI64 (if m > 2 then m - 3 else m + 9) + 2) / 5 + asI64 (d - 1)
  let doe := yoe * 365 + yoe / 4 - yoe / 100 + doy
  era * 146097 + doe - 719468

def civilFromDays (z : Int64) : Int64 × UInt32 × UInt32 :=
  let z := z + 719468
  let era := (if z ≥ 0 then z else z - 146096) / 146097
  let doe := z - era * 146097
  let yoe := (doe - doe / 1460 + doe / 36524 - doe / 146096) / 365
  let y := yoe + era * 400
  let doy := doe - (365 * yoe + yoe / 4 - yoe / 100)
  let mp := (5 * doy + 2) / 153
  let d := asU32 (doy - (153 * mp + 2) / 5 + 1)
  let m := asU32 (if mp < 10 then mp + 3 else mp - 9)
  let y := if m ≤ 2 then y + 1 else y
  (y, m, d)

/-- `x.div_euclid(k)` for a positive `k`. -/
def divEuclid (x k : Int64) : Int64 := Int64.ofInt (x.toInt / k.toInt)

/-- `x.rem_euclid(k)` for a positive `k`. -/
def remEuclid (x k : Int64) : Int64 := Int64.ofInt (x.toInt % k.toInt)

def kryosTimeYearUtc (epochSecs : Int64) : Int64 :=
  let days := divEuclid epochSecs 86400
  (civilFromDays days).1

def kryosTimeMonthUtc (epochSecs : Int64) : Int64 :=
  let days := divEuclid epochSecs 86400
  asI64 (civilFromDays days).2.1

def kryosTimeDayUtc (epochSecs : Int64) : Int64 :=
  let days := divEuclid epochSecs 86400
  asI64 (civilFromDays days).2.2

def kryosTimeHourUtc (epochSecs : Int64) : Int64 := remEuclid epochSecs 86400 / 3600

def kryosTimeMinuteUtc (epochSecs : Int64) : Int64 := (remEuclid epochSecs 86400 % 3600) / 60

def kryosTimeSecondUtc (epochSecs : Int64) : Int64 := remEuclid epochSecs 60

/-- The six numbers that `kryos_time_from_ymdhms_utc` takes. -/
@[ext]
structure Ymdhms where
  year : Int64
  month : Int64
  day : Int64
  hour : Int64
  minute : Int64
  second : Int64
  deriving DecidableEq

/-- `kryos_time_from_ymdhms_utc` rejects the month or the day. -/
def Rejected (t : Ymdhms) : Prop :=
  ¬ (1 ≤ t.month ∧ t.month ≤ 12) ∨ ¬ (1 ≤ t.day ∧ t.day ≤ 31)

instance (t : Ymdhms) : Decidable (Rejected t) := inferInstanceAs (Decidable (_ ∨ _))

def kryosTimeFromYmdhmsUtc (t : Ymdhms) : Int64 :=
  if Rejected t then -1
  else
    let days := daysFromCivil t.year (asU32 t.month) (asU32 t.day)
    days * 86400 + t.hour * 3600 + t.minute * 60 + t.second

/-- The components of the instant. -/
def componentsUtc (epochSecs : Int64) : Ymdhms where
  year := kryosTimeYearUtc epochSecs
  month := kryosTimeMonthUtc epochSecs
  day := kryosTimeDayUtc epochSecs
  hour := kryosTimeHourUtc epochSecs
  minute := kryosTimeMinuteUtc epochSecs
  second := kryosTimeSecondUtc epochSecs

/-! ## Casts -/

theorem toInt_asI64 (x : UInt32) : (asI64 x).toInt = x.toNat := by
  have hlt := x.toNat_lt
  calc (asI64 x).toInt = (Int64.ofNat x.toUInt64.toNat).toInt := by
        rw [asI64, ← UInt64.toInt64_ofNat', UInt64.ofNat_toNat]
    _ = x.toNat := by rw [UInt32.toNat_toUInt64, Int64.toInt_ofNat_of_lt (by omega)]

variable {n : ℤ}

theorem toNat_asU32 {x : Int64} (hx : x.toInt = n) (h : 0 ≤ n) (h' : n < 4294967296) :
    ((asU32 x).toNat : ℤ) = n := by
  obtain ⟨k, rfl⟩ := Int.eq_ofNat_of_zero_le h
  have hofNat : x = Int64.ofNat k := by
    rw [← Int64.toInt_inj, hx, Int64.toInt_ofNat_of_lt (by omega)]
  subst hofNat
  rw [asU32, Int64.toUInt64_ofNat', UInt64.toUInt32_ofNat', UInt32.toNat_ofNat',
    Nat.mod_eq_of_lt (by omega)]

variable {m : UInt32}

theorem le_two_iff (hm : m.toNat = n) : m ≤ 2 ↔ n ≤ 2 := by
  rw [UInt32.le_iff_toNat_le, show (2 : UInt32).toNat = 2 from rfl]
  omega

theorem toInt_divEuclid {x k : Int64} {m : ℤ} (hx : x.toInt = m) (hk : k.toInt = n) (hn : 0 < n) :
    (divEuclid x k).toInt = m / n := by
  rw [divEuclid, hx, hk, toInt_ofInt_of_fits (fits_ediv (hx ▸ fits_toInt x) hn)]

theorem toInt_remEuclid {x k : Int64} {m : ℤ} (hx : x.toInt = m) (hk : k.toInt = n) (hn : 0 < n) :
    (remEuclid x k).toInt = m % n := by
  have hr := Int.emod_nonneg m hn.ne'
  have hr' := Int.emod_lt_of_pos m hn
  have hfit : Fits n := hk ▸ fits_toInt k
  rw [remEuclid, hx, hk, toInt_ofInt_of_fits ⟨by omega, hr'.trans hfit.2⟩]

/-! ## From a date to its day number -/

/-- The years for which `days_from_civil` is exact. -/
def SmallYear (y : ℤ) : Prop := -1099511627776 ≤ y ∧ y ≤ 1099511627776

/-- The month as `days_from_civil` counts it. -/
theorem toInt_marchMonth (hm : m.toNat = n) (h : 1 ≤ n) (h' : n ≤ 12) :
    (asI64 (if m > 2 then m - 3 else m + 9)).toInt = marchMonth n := by
  have hword : m = UInt32.ofNat n.toNat := by
    rw [← hm, Int.toNat_natCast, UInt32.ofNat_toNat]
  subst hword
  clear hm
  interval_cases n <;> rfl

theorem toInt_marchYear {y : Int64} {y' m' : ℤ} (hy : y.toInt = y') (hm : m.toNat = m')
    (hsmall : SmallYear y') : (if m ≤ 2 then y - 1 else y).toInt = marchYear y' m' := by
  obtain ⟨hlo, hhi⟩ := hsmall
  rw [marchYear]
  by_cases h : m' ≤ 2
  · rw [if_pos ((le_two_iff hm).mpr h), if_pos h]
    exact sub hy rfl ⟨by omega, by omega⟩
  · rw [if_neg (mt (le_two_iff hm).mp h), if_neg h, hy]

theorem toInt_daysFromCivil {y : Int64} {d : UInt32} {y' m' d' : ℤ} (hy : y.toInt = y')
    (hm : m.toNat = m') (hd : d.toNat = d') (hsmall : SmallYear y') (hdate : IsDate y' m' d') :
    (daysFromCivil y m d).toInt = dayNumber y' m' d' := by
  have hlen := daysInMonth_le y' m'
  obtain ⟨hm1, hm12, hd1, hd31⟩ := hdate
  have hmarch : -1099511627777 ≤ marchYear y' m' ∧ marchYear y' m' ≤ 1099511627776 := by
    obtain ⟨hlo, hhi⟩ := hsmall
    rw [marchYear]
    split_ifs <;> omega
  have hmonth : 0 ≤ marchMonth m' ∧ marchMonth m' ≤ 11 := by
    rw [marchMonth]
    split_ifs <;> omega
  obtain ⟨era, hera⟩ : ∃ era, marchYear y' m' / 400 = era := ⟨_, rfl⟩
  obtain ⟨yoe, hyoe⟩ : ∃ yoe, marchYear y' m' - era * 400 = yoe := ⟨_, rfl⟩
  have hyoe' : 0 ≤ yoe ∧ yoe < 400 := by omega
  -- each local variable of the function, in the order in which it is computed
  have hY := toInt_marchYear hy hm hsmall
  have hERA := floorDiv hY (show (400 : Int64).toInt = 400 from rfl)
    (show (399 : Int64).toInt = 399 from rfl) (by decide) ⟨by omega, by omega⟩
  rw [hera] at hERA
  have hYOE := sub hY (mul hERA (show (400 : Int64).toInt = 400 from rfl) ⟨by omega, by omega⟩)
    ⟨by omega, by omega⟩
  rw [hyoe] at hYOE
  have hMONTH := toInt_marchMonth hm hm1 hm12
  have hMONTHS := div (add (mul (show (153 : Int64).toInt = 153 from rfl) hMONTH
    ⟨by omega, by omega⟩) (show (2 : Int64).toInt = 2 from rfl) ⟨by omega, by omega⟩)
    (show (5 : Int64).toInt = 5 from rfl) (by omega) (by decide)
  have hDAY : (asI64 (d - 1)).toInt = d' - 1 := by
    have hone : (1 : UInt32).toNat = 1 := rfl
    rw [toInt_asI64, UInt32.toNat_sub_of_le _ _ (by rw [UInt32.le_iff_toNat_le]; omega)]
    omega
  have hDOY := add hMONTHS hDAY ⟨by omega, by omega⟩
  have hYEARS := sub (add (mul hYOE (show (365 : Int64).toInt = 365 from rfl)
    ⟨by omega, by omega⟩) (div hYOE (show (4 : Int64).toInt = 4 from rfl) hyoe'.1 (by decide))
    ⟨by omega, by omega⟩) (div hYOE (show (100 : Int64).toInt = 100 from rfl) hyoe'.1
    (by decide)) ⟨by omega, by omega⟩
  have hDOE := add hYEARS hDOY ⟨by omega, by omega⟩
  have hDAYS := sub (add (mul hERA (show (146097 : Int64).toInt = 146097 from rfl)
    ⟨by omega, by omega⟩) hDOE ⟨by omega, by omega⟩)
    (show (719468 : Int64).toInt = 719468 from rfl) ⟨by omega, by omega⟩
  rw [dayNumber_eq_march y' d' hm1 hm12 (show marchYear y' m' = yoe + era * 400 by omega) hyoe']
  exact hDAYS

/-! ## From a day number to its date -/

/-- The day numbers for which `civil_from_days` is exact. -/
def SmallDay (z : ℤ) : Prop := -281474976710656 ≤ z ∧ z ≤ 281474976710656

/-- The date that a result of `civil_from_days` stands for. -/
structure Denotes (civil : Int64 × UInt32 × UInt32) (t : Date) : Prop where
  year : civil.1.toInt = t.year
  month : (civil.2.1.toNat : ℤ) = t.month
  day : (civil.2.2.toNat : ℤ) = t.day

theorem toInt_monthOfDay {mp : Int64} {doy : ℤ} (h : 0 ≤ doy) (h' : doy ≤ 365)
    (hmp : mp.toInt = marchMonthOfDay doy) :
    (if mp < 10 then mp + 3 else mp - 9).toInt = monthOfDay doy := by
  have hlt : mp < 10 ↔ marchMonthOfDay doy < 10 := by
    rw [Int64.lt_iff_toInt_lt, hmp, show (10 : Int64).toInt = 10 from rfl]
  have hbound : 0 ≤ marchMonthOfDay doy ∧ marchMonthOfDay doy ≤ 11 := by
    rw [marchMonthOfDay]
    omega
  simp only [hlt, monthOfDay]
  split_ifs
  · exact add hmp rfl ⟨by omega, by omega⟩
  · exact sub hmp rfl ⟨by omega, by omega⟩

theorem toInt_civilYear {y : Int64} {y' m' : ℤ} (hy : y.toInt = y') (hm : m.toNat = m')
    (hsmall : SmallYear y') :
    (if m ≤ 2 then y + 1 else y).toInt = if m' ≤ 2 then y' + 1 else y' := by
  obtain ⟨hlo, hhi⟩ := hsmall
  simp only [le_two_iff hm]
  split_ifs
  · exact add hy rfl ⟨by omega, by omega⟩
  · exact hy

theorem toInt_yearOfCycle {doe : Int64} (hn : doe.toInt = n) (h : 0 ≤ n) (h' : n < 146097) :
    ((doe - doe / 1460 + doe / 36524 - doe / 146096) / 365).toInt =
      (n - n / 1460 + n / 36524 - n / 146096) / 365 := by
  have h1 := div hn (show (1460 : Int64).toInt = 1460 from rfl) h (by decide)
  have h2 := div hn (show (36524 : Int64).toInt = 36524 from rfl) h (by decide)
  have h3 := div hn (show (146096 : Int64).toInt = 146096 from rfl) h (by decide)
  have hsum := sub (add (sub hn h1 ⟨by omega, by omega⟩) h2 ⟨by omega, by omega⟩) h3
    ⟨by omega, by omega⟩
  exact div hsum (show (365 : Int64).toInt = 365 from rfl) (by omega) (by decide)

theorem toInt_dayOfYear {doe yoe : Int64} {m : ℤ} (hm : doe.toInt = m) (hn : yoe.toInt = n)
    (h : 0 ≤ m ∧ m < 146097) (h' : 0 ≤ n ∧ n < 400) :
    (doe - (365 * yoe + yoe / 4 - yoe / 100)).toInt = m - daysBeforeYearOfCycle n := by
  have hquot := div hn (show (4 : Int64).toInt = 4 from rfl) h'.1 (by decide)
  have hquot' := div hn (show (100 : Int64).toInt = 100 from rfl) h'.1 (by decide)
  have hmul := mul (show (365 : Int64).toInt = 365 from rfl) hn ⟨by omega, by omega⟩
  have hsum := sub (add hmul hquot ⟨by omega, by omega⟩) hquot' ⟨by omega, by omega⟩
  rw [daysBeforeYearOfCycle, Int.mul_comm n]
  exact sub hm hsum ⟨by omega, by omega⟩

theorem toInt_marchMonthOfDay {doy : Int64} (hn : doy.toInt = n) (h : 0 ≤ n) (h' : n ≤ 365) :
    ((5 * doy + 2) / 153).toInt = marchMonthOfDay n := by
  have hmul := mul (show (5 : Int64).toInt = 5 from rfl) hn ⟨by omega, by omega⟩
  have hsum := add hmul (show (2 : Int64).toInt = 2 from rfl) ⟨by omega, by omega⟩
  exact div hsum (show (153 : Int64).toInt = 153 from rfl) (by omega) (by decide)

theorem toInt_dayOfDay {doy mp : Int64} (hn : doy.toInt = n) (hmp : mp.toInt = marchMonthOfDay n)
    (h : 0 ≤ n) (h' : n ≤ 365) : (doy - (153 * mp + 2) / 5 + 1).toInt = dayOfDay n := by
  have hbound : 0 ≤ marchMonthOfDay n ∧ marchMonthOfDay n ≤ 11 := by
    rw [marchMonthOfDay]
    omega
  have hmul := mul (show (153 : Int64).toInt = 153 from rfl) hmp ⟨by omega, by omega⟩
  have hsum := add hmul (show (2 : Int64).toInt = 2 from rfl) ⟨by omega, by omega⟩
  have hquot := div hsum (show (5 : Int64).toInt = 5 from rfl) (by omega) (by decide)
  exact add (sub hn hquot ⟨by omega, by omega⟩) rfl ⟨by omega, by omega⟩

/-- The era of a day and the day in it. -/
theorem toInt_eraOfDay {z : Int64} {z' : ℤ} (hz : z.toInt = z') (h : SmallDay z') :
    (z + 719468).toInt = z' + 719468 ∧
    ((if z + 719468 ≥ 0 then z + 719468 else z + 719468 - 146096) / 146097).toInt =
      (z' + 719468) / 146097 := by
  obtain ⟨hlo, hhi⟩ := h
  have hsum := add hz (show (719468 : Int64).toInt = 719468 from rfl) ⟨by omega, by omega⟩
  exact ⟨hsum, floorDiv hsum rfl rfl (by decide) ⟨by omega, by omega⟩⟩

theorem toInt_yearOfEra {yoe era : Int64} {m : ℤ} (hm : yoe.toInt = m) (hn : era.toInt = n)
    (h : 0 ≤ m ∧ m < 400) (h' : -2000000000 ≤ n ∧ n ≤ 2000000000) :
    (yoe + era * 400).toInt = m + n * 400 ∧ SmallYear (m + n * 400) :=
  ⟨add hm (mul hn (show (400 : Int64).toInt = 400 from rfl) ⟨by omega, by omega⟩)
    ⟨by omega, by omega⟩, by omega, by omega⟩

/-- `civil_from_days` returns the date with that day number. -/
theorem denotes_civilFromDays {z : Int64} {z' : ℤ} (hz : z.toInt = z') (hsmall : SmallDay z') :
    ∃ t : Date, Denotes (civilFromDays z) t ∧ t.dayNumber = z' := by
  obtain ⟨hZ, hERA⟩ := toInt_eraOfDay hz hsmall
  obtain ⟨hlo, hhi⟩ := hsmall
  obtain ⟨era, hera⟩ : ∃ era, (z' + 719468) / 146097 = era := ⟨_, rfl⟩
  rw [hera] at hERA
  have hDOE := sub hZ (mul hERA (show (146097 : Int64).toInt = 146097 from rfl)
    ⟨by omega, by omega⟩) ⟨by omega, by omega⟩
  obtain ⟨doe, hdoe⟩ : ∃ doe, z' + 719468 - era * 146097 = doe := ⟨_, rfl⟩
  rw [hdoe] at hDOE
  have hdoe' : 0 ≤ doe ∧ doe < 146097 := by omega
  have hera' : -2000000000 ≤ era ∧ era ≤ 2000000000 := by omega
  obtain ⟨a, b, c, doy, hcycle, hsplit⟩ := exists_cycleDay hdoe'.1 hdoe'.2
  obtain ⟨hd, hd'⟩ := hcycle.day
  have hyoe := yearOfCycle_bounds hcycle
  have hdoy := doe_sub_daysBeforeYearOfCycle hcycle hsplit
  have hYOE := toInt_yearOfCycle hDOE hdoe'.1 hdoe'.2
  rw [yearOfCycle_eq hcycle hsplit] at hYOE
  obtain ⟨hY, hsmallYear⟩ := toInt_yearOfEra hYOE hERA hyoe hera'
  have hDOY := toInt_dayOfYear hDOE hYOE hdoe' hyoe
  rw [hdoy] at hDOY
  have hMP := toInt_marchMonthOfDay hDOY hd hd'
  obtain ⟨hmonth, hm1, hm12⟩ := marchMonth_monthOfDay hd hd'
  have hM := toNat_asU32 (toInt_monthOfDay hd hd' hMP) ((by decide : (0 : ℤ) ≤ 1).trans hm1)
    (hm12.trans_lt (by decide))
  have hmarch := marchYear_civilYear (100 * a + 4 * b + c + era * 400) (monthOfDay doy)
  have hdate := isDate_of_cycleDay hcycle hmarch
  have hD := toNat_asU32 (toInt_dayOfDay hDOY hMP hd hd')
    ((by decide : (0 : ℤ) ≤ 1).trans hdate.2.2.1)
    ((hdate.2.2.2.trans (daysInMonth_le _ _)).trans_lt (by decide))
  have hYEAR := toInt_civilYear hY hM hsmallYear
  refine ⟨⟨_, _, _, hdate⟩, ⟨hYEAR, hM, hD⟩, ?_⟩
  rw [Date.dayNumber, dayNumber_eq_march _ _ hm1 hm12 hmarch hyoe, hmonth]
  -- only the definitions of the local variables matter for the sum
  clear * - hdoy hdoe
  simp only [dayOfDay]
  omega

theorem smallYear_of_smallDay {y m d : ℤ} (hdate : IsDate y m d)
    (hsmall : SmallDay (dayNumber y m d)) : SmallYear y := by
  have hlen := daysInMonth_le y m
  obtain ⟨hm, hm', hd, hd'⟩ := hdate
  obtain ⟨hlo, hhi⟩ := hsmall
  simp only [dayNumber, daysBeforeYear, daysBeforeMonth] at hlo hhi
  refine ⟨?_, ?_⟩ <;> split_ifs at hlo hhi <;> omega

/-- `days_from_civil` takes the date back to its day number. -/
theorem daysFromCivil_of_denotes {civil : Int64 × UInt32 × UInt32} {t : Date} {z : Int64}
    (h : Denotes civil t) (hz : t.dayNumber = z.toInt) (hsmall : SmallDay z.toInt) :
    daysFromCivil civil.1 civil.2.1 civil.2.2 = z := by
  have hyear : SmallYear t.year := by
    rw [← hz] at hsmall
    exact smallYear_of_smallDay t.isDate hsmall
  rw [← Int64.toInt_inj, ← hz, toInt_daysFromCivil h.year h.month h.day hyear t.isDate,
    Date.dayNumber]

theorem eq_of_dayNumber_eq {t u : Date} (h : t.dayNumber = u.dayNumber) : t = u := by
  obtain ⟨hy, hm, hd⟩ := dayNumber_injective t.isDate u.isDate h
  exact Date.ext hy hm hd

/-- The next day number gives the date of the next day. -/
theorem denotes_civilFromDays_succ {z : Int64} {t : Date} (hz : t.dayNumber = z.toInt)
    (hlo : -281474976710656 ≤ z.toInt) (hhi : z.toInt < 281474976710656) :
    Denotes (civilFromDays (z + 1)) t.next := by
  have hsucc := add (show z.toInt = z.toInt from rfl) (show (1 : Int64).toInt = 1 from rfl)
    ⟨by omega, by omega⟩
  obtain ⟨u, hu, hnumber⟩ := denotes_civilFromDays hsucc ⟨by omega, by omega⟩
  have hnext : t.next = u := by
    apply eq_of_dayNumber_eq
    rw [Date.dayNumber_next, hnumber, hz]
  rwa [hnext]

/-! ## Instants and their components -/

/-- The day of the instant. -/
def dayOf (epochSecs : Int64) : Int64 := divEuclid epochSecs 86400

theorem toInt_dayOf (e : Int64) : (dayOf e).toInt = e.toInt / 86400 :=
  toInt_divEuclid rfl rfl (by decide)

theorem dayOf_bounds (e : Int64) :
    -281474976710656 ≤ (dayOf e).toInt ∧ (dayOf e).toInt < 281474976710656 := by
  have hlo := e.le_toInt
  have hhi := e.toInt_lt
  rw [toInt_dayOf]
  omega

namespace Ymdhms

/-- The seconds since the epoch that the six numbers stand for, without overflow. -/
def exactSeconds (t : Ymdhms) : ℤ :=
  epochSeconds t.year.toInt t.month.toInt t.day.toInt t.hour.toInt t.minute.toInt t.second.toInt

/-- The six numbers are a date of the calendar and a time of a day. -/
def IsDateTime (t : Ymdhms) : Prop :=
  IsDate t.year.toInt t.month.toInt t.day.toInt ∧ IsTime t.hour.toInt t.minute.toInt t.second.toInt

/-- They are a date and a time whose seconds since the epoch an `i64` holds. -/
def IsInstant (t : Ymdhms) : Prop := t.IsDateTime ∧ Fits t.exactSeconds

instance (t : Ymdhms) : Decidable t.IsDateTime := inferInstanceAs (Decidable (_ ∧ _))

instance (t : Ymdhms) : Decidable t.IsInstant := inferInstanceAs (Decidable (_ ∧ _))

theorem ext_toInt {t u : Ymdhms} (ht : t.IsDateTime) (hu : u.IsDateTime)
    (h : t.exactSeconds = u.exactSeconds) : t = u := by
  obtain ⟨⟨hy, hm, hd⟩, hh, hmi, hs⟩ := epochSeconds_injective ht.1 hu.1 ht.2 hu.2 h
  exact Ymdhms.ext (Int64.toInt_inj.mp hy) (Int64.toInt_inj.mp hm) (Int64.toInt_inj.mp hd)
    (Int64.toInt_inj.mp hh) (Int64.toInt_inj.mp hmi) (Int64.toInt_inj.mp hs)

end Ymdhms

/-- The components of an instant are a date and a time, and they stand for the instant. -/
theorem componentsUtc_exact (e : Int64) :
    (componentsUtc e).IsDateTime ∧ (componentsUtc e).exactSeconds = e.toInt := by
  obtain ⟨t, ht, hday⟩ := denotes_civilFromDays (toInt_dayOf e) (by
    have := dayOf_bounds e
    rw [toInt_dayOf] at this
    exact ⟨this.1, this.2.le⟩)
  have hrem := toInt_remEuclid (x := e) rfl (show (86400 : Int64).toInt = 86400 from rfl)
    (by decide)
  have hhour : (componentsUtc e).hour.toInt = e.toInt % 86400 / 3600 :=
    div hrem rfl (by omega) (by decide)
  have hminute : (componentsUtc e).minute.toInt = e.toInt % 86400 % 3600 / 60 := by
    refine div ?_ rfl (by omega) (by decide)
    rw [Int64.toInt_mod, hrem, show (3600 : Int64).toInt = 3600 from rfl,
      Int.tmod_eq_emod_of_nonneg (by omega)]
  have hsecond : (componentsUtc e).second.toInt = e.toInt % 60 :=
    toInt_remEuclid rfl rfl (by decide)
  have hyear : (componentsUtc e).year.toInt = t.year := ht.year
  have hmonth : (componentsUtc e).month.toInt = t.month := (toInt_asI64 _).trans ht.month
  have hdate : (componentsUtc e).day.toInt = t.day := (toInt_asI64 _).trans ht.day
  rw [Ymdhms.IsDateTime, Ymdhms.exactSeconds, hhour, hminute, hsecond, hyear, hmonth, hdate]
  refine ⟨⟨t.isDate, ⟨?_, ?_⟩, ⟨?_, ?_⟩, ?_, ?_⟩, ?_⟩ <;> try omega
  rw [Date.dayNumber] at hday
  rw [epochSeconds, hday]
  omega

theorem Ymdhms.IsInstant.not_rejected {t : Ymdhms} (h : t.IsInstant) : ¬ Rejected t := by
  obtain ⟨⟨⟨hm, hm', hd, hd'⟩, -⟩, -⟩ := h
  have hlen := daysInMonth_le t.year.toInt t.month.toInt
  simp only [Rejected, Int64.le_iff_toInt_le, show (1 : Int64).toInt = 1 from rfl,
    show (12 : Int64).toInt = 12 from rfl, show (31 : Int64).toInt = 31 from rfl]
  omega

theorem Ymdhms.IsInstant.smallYear {t : Ymdhms} (h : t.IsInstant) : SmallYear t.year.toInt := by
  obtain ⟨⟨hdate, htime⟩, hlo, hhi⟩ := h
  refine smallYear_of_smallDay hdate ?_
  simp only [Ymdhms.exactSeconds, epochSeconds, IsTime] at hlo hhi htime
  exact ⟨by omega, by omega⟩

/-- For an instant the sum may overflow on the way, and is right nevertheless. -/
theorem toInt_kryosTimeFromYmdhmsUtc {t : Ymdhms} (h : t.IsInstant) :
    (kryosTimeFromYmdhmsUtc t).toInt = t.exactSeconds := by
  have hdate := h.1.1
  have hlen := daysInMonth_le t.year.toInt t.month.toInt
  have hmonth := toNat_asU32 (x := t.month) rfl (by have := hdate.1; omega)
    (by have := hdate.2.1; omega)
  have hday := toNat_asU32 (x := t.day) rfl (by have := hdate.2.2.1; omega)
    (by have := hdate.2.2.2; omega)
  have hdays := toInt_daysFromCivil rfl hmonth hday h.smallYear hdate
  rw [kryosTimeFromYmdhmsUtc, if_neg h.not_rejected]
  simp only [Int64.toInt_add, Int64.toInt_mul, hdays, Int.bmod_add_bmod, Int.add_bmod_bmod,
    show (86400 : Int64).toInt = 86400 from rfl, show (3600 : Int64).toInt = 3600 from rfl,
    show (60 : Int64).toInt = 60 from rfl]
  exact bmod_of_fits h.2

/-- Whatever `kryos_time_from_ymdhms_utc` computes from numbers that are no instant, the components
of the result are other numbers. -/
theorem componentsUtc_fromYmdhms_iff (t : Ymdhms) :
    componentsUtc (kryosTimeFromYmdhmsUtc t) = t ↔ t.IsInstant := by
  obtain ⟨hdateTime, hexact⟩ := componentsUtc_exact (kryosTimeFromYmdhmsUtc t)
  constructor
  · intro heq
    rw [heq] at hdateTime hexact
    exact ⟨hdateTime, hexact ▸ fits_toInt _⟩
  · intro h
    exact Ymdhms.ext_toInt hdateTime h.1 (hexact.trans (toInt_kryosTimeFromYmdhmsUtc h))

theorem fromYmdhms_componentsUtc (e : Int64) : kryosTimeFromYmdhmsUtc (componentsUtc e) = e := by
  obtain ⟨hdateTime, hexact⟩ := componentsUtc_exact e
  have hinstant : (componentsUtc e).IsInstant := ⟨hdateTime, hexact ▸ fits_toInt e⟩
  rw [← Int64.toInt_inj, toInt_kryosTimeFromYmdhmsUtc hinstant, hexact]

/-! ## The bijection -/

/-- The day number of the instant `e` and its date determine each other, the next day number has the
next date, and the components of `e` build `e`. -/
def DayRoundTrips (e : Int64) : Prop :=
  (∃ t : Date, Denotes (civilFromDays (dayOf e)) t ∧
    Denotes (civilFromDays (dayOf e + 1)) t.next) ∧
  daysFromCivil (civilFromDays (dayOf e)).1 (civilFromDays (dayOf e)).2.1
    (civilFromDays (dayOf e)).2.2 = dayOf e ∧
  kryosTimeFromYmdhmsUtc (componentsUtc e) = e

theorem dayRoundTrips (e : Int64) : DayRoundTrips e := by
  obtain ⟨hlo, hhi⟩ := dayOf_bounds e
  obtain ⟨t, ht, hnumber⟩ := denotes_civilFromDays rfl ⟨hlo, hhi.le⟩
  exact ⟨⟨t, ht, denotes_civilFromDays_succ hnumber hlo hhi⟩,
    daysFromCivil_of_denotes ht hnumber ⟨hlo, hhi.le⟩, fromYmdhms_componentsUtc e⟩

/-- The conversions are inverse to each other on every instant; on six numbers that are accepted
they are exactly when these are a date of the calendar and a time of a day within range. -/
theorem calendar_bijection_iff (e : Int64) (t : Ymdhms) :
    DayRoundTrips e ∧ (¬ Rejected t → componentsUtc (kryosTimeFromYmdhmsUtc t) = t) ↔
      (Rejected t ∨ t.IsInstant) := by
  rw [componentsUtc_fromYmdhms_iff, or_iff_not_imp_left, and_iff_right (dayRoundTrips e)]

/-- The 31st of February is accepted and comes back as the 3rd of March. -/
theorem february_31_counterexample :
    ¬ ∀ t : Ymdhms, ¬ Rejected t → componentsUtc (kryosTimeFromYmdhmsUtc t) = t := fun h =>
  absurd (h ⟨2026, 2, 31, 0, 0, 0⟩ (by decide)) (by decide +kernel)

end Kryos.Stdlib.Datetime

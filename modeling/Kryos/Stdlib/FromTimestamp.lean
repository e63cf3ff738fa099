import Kryos.Lib.VariantLoop
import Kryos.Stdlib.Datetime

/-!
# `from_timestamp`

The date and the time of an instant as the library of the language computes them: it goes over whole
cycles of 400 years, then over the years and over the months that are left, and takes the seconds
of each off what remains. The years are numbers of 64 bits, which the test for a leap year cuts
down to 32.

## Main results

* `FromTimestamp.iterate_yearStep`, `FromTimestamp.iterate_monthStep` — where the loops stop
* `FromTimestamp.fromTimestamp_agrees` — the fields are those of the native functions
-/

namespace Kryos.Stdlib.FromTimestamp

open ExactWord Gregorian Datetime VariantLoop

/-! ## The function -/

structure DateTime where
  year : Int32
  month : Int32
  day : Int32
  hour : Int32
  minute : Int32
  second : Int32
  deriving DecidableEq, Repr

def isLeapYear (year : Int32) : Bool :=
  if year % 400 = 0 then true
  else if year % 100 = 0 then false
  else if year % 4 = 0 then true
  else false

def days : List Int32 := [31, 28, 31, 30, 31, 30, 31, 31, 30, 31, 30, 31]

/-- `none` where the index is out of bounds. -/
def daysInMonth (month : Int32) (isLeap : Bool) : Option Int32 :=
  if month = 2 ∧ isLeap = true then some 29
  else if 0 ≤ (month - 1).toInt then days[(month - 1).toInt.toNat]?
  else none

/-- The variables of the loops over the years. -/
structure YearPosition where
  remaining : Int64
  year : Int64

/-- The variables of the loop over the months. -/
structure MonthPosition where
  remaining : Int64
  month : Int64

def secsPer400y : Int64 := 12622780800

/-- Before the epoch whole cycles are borrowed until something remains. -/
def borrowCycles (epochSecs : Int64) : YearPosition :=
  if epochSecs < 0 then
    let cycles := (0 - epochSecs) / secsPer400y + 1
    ⟨epochSecs + cycles * secsPer400y, 1970 - cycles * 400⟩
  else ⟨epochSecs, 1970⟩

def takeCycles (p : YearPosition) : YearPosition :=
  if p.remaining ≥ secsPer400y then
    let cycles := p.remaining / secsPer400y
    ⟨p.remaining - cycles * secsPer400y, p.year + cycles * 400⟩
  else p

def secsInYear (year : Int64) : Int64 :=
  let daysInYear : Int64 := if isLeapYear year.toInt32 then 366 else 365
  daysInYear * 86400

def backStep (p : YearPosition) : Option (YearPosition ⊕ YearPosition) :=
  if p.remaining < 0 then some (.inl ⟨p.remaining + secsInYear (p.year - 1), p.year - 1⟩)
  else some (.inr p)

def yearStep (p : YearPosition) : Option (YearPosition ⊕ YearPosition) :=
  if p.remaining < secsInYear p.year then some (.inr p)
  else some (.inl ⟨p.remaining - secsInYear p.year, p.year + 1⟩)

def monthStep (year : Int64) (q : MonthPosition) : Option (MonthPosition ⊕ MonthPosition) := do
  let dim ← daysInMonth q.month.toInt32 (isLeapYear year.toInt32)
  let secsInMonth := dim.toInt64 * 86400
  if q.remaining < secsInMonth then some (.inr q)
  else some (.inl ⟨q.remaining - secsInMonth, q.month + 1⟩)

/-- Each round of a loop takes at least a day off what remains. -/
def rounds (remaining : Int64) : ℕ := remaining.toInt.natAbs + 1

/-- What follows the loops. -/
def dateTimeOf (year month remaining : Int64) : DateTime :=
  let day := remaining / 86400 + 1
  let remaining := remaining % 86400
  let hour := remaining / 3600
  let remaining := remaining % 3600
  let minute := remaining / 60
  let second := remaining % 60
  { year := year.toInt32
    month := month.toInt32
    day := day.toInt32
    hour := hour.toInt32
    minute := minute.toInt32
    second := second.toInt32 }

def fromTimestamp (epochSecs : Int64) : Option DateTime := do
  let p := takeCycles (borrowCycles epochSecs)
  let p ← iterate backStep (rounds p.remaining) p
  let p ← iterate yearStep (rounds p.remaining) p
  let q ← iterate (monthStep p.year) (rounds p.remaining) ⟨p.remaining, 1⟩
  some (dateTimeOf p.year q.month q.remaining)

/-! ## Whole cycles -/

theorem toInt_mod {x k : Int64} {m n : ℤ} (hx : x.toInt = m) (hk : k.toInt = n) (h : 0 ≤ m) :
    (x % k).toInt = m % n := by
  rw [Int64.toInt_mod, hx, hk, Int.tmod_eq_emod_of_nonneg h]

/-- `p` is the instant `e`, told from the beginning of the year 1970 + 400 k. -/
structure AtCycle (e : Int64) (p : YearPosition) (k : ℤ) : Prop where
  remaining : p.remaining.toInt = e.toInt - k * 12622780800
  year : p.year.toInt = 1970 + k * 400

/-- The instants of which the cycles can be counted without overflow. -/
def Countable (e : Int64) : Prop := -1000000000000000000 ≤ e.toInt ∧ e.toInt ≤ 1000000000000000000

theorem atCycle_borrowCycles {e : Int64} (h : Countable e) :
    ∃ k, AtCycle e (borrowCycles e) k ∧ 0 ≤ (borrowCycles e).remaining.toInt ∧
      -100000000 ≤ k ∧ k ≤ 0 := by
  obtain ⟨hlo, hhi⟩ := h
  have hS : secsPer400y.toInt = 12622780800 := rfl
  by_cases hneg : e < 0
  · have hneg' : e.toInt < 0 := Int64.lt_iff_toInt_lt.mp hneg
    have hminus := sub (show (0 : Int64).toInt = 0 from rfl) (show e.toInt = e.toInt from rfl)
      ⟨by omega, by omega⟩
    have hcycles := add (div hminus hS (by omega) (by decide))
      (show (1 : Int64).toInt = 1 from rfl) ⟨by omega, by omega⟩
    obtain ⟨c, hc⟩ : ∃ c, (0 - e.toInt) / 12622780800 + 1 = c := ⟨_, rfl⟩
    rw [hc] at hcycles
    have hrem := add (show e.toInt = e.toInt from rfl) (mul hcycles hS ⟨by omega, by omega⟩)
      ⟨by omega, by omega⟩
    have hyear := sub (show (1970 : Int64).toInt = 1970 from rfl)
      (mul hcycles (show (400 : Int64).toInt = 400 from rfl) ⟨by omega, by omega⟩)
      ⟨by omega, by omega⟩
    rw [borrowCycles, if_pos hneg]
    exact ⟨-c, ⟨by dsimp only; omega, by dsimp only; omega⟩, by dsimp only; omega, by omega,
      by omega⟩
  · have hnonneg : 0 ≤ e.toInt := by
      rw [Int64.lt_iff_toInt_lt, show (0 : Int64).toInt = 0 from rfl] at hneg
      omega
    rw [borrowCycles, if_neg hneg]
    exact ⟨0, ⟨by dsimp only; omega, by dsimp only; rfl⟩, hnonneg, by decide, by decide⟩

variable {p : YearPosition}

theorem atCycle_takeCycles {e : Int64} {k : ℤ} (he : Countable e) (h : AtCycle e p k)
    (hpos : 0 ≤ p.remaining.toInt) (hlo : -100000000 ≤ k) (hhi : k ≤ 0) :
    ∃ k', AtCycle e (takeCycles p) k' ∧ 0 ≤ (takeCycles p).remaining.toInt ∧
      (takeCycles p).remaining.toInt < 12622780800 := by
  obtain ⟨hrem, hyear⟩ := h
  obtain ⟨helo, hehi⟩ := he
  have hS : secsPer400y.toInt = 12622780800 := rfl
  have hge : p.remaining ≥ secsPer400y ↔ 12622780800 ≤ p.remaining.toInt :=
    Int64.le_iff_toInt_le
  by_cases h : p.remaining ≥ secsPer400y
  · have hcycles := div (show p.remaining.toInt = p.remaining.toInt from rfl) hS hpos (by decide)
    obtain ⟨c, hc⟩ : ∃ c, p.remaining.toInt / 12622780800 = c := ⟨_, rfl⟩
    rw [hc] at hcycles
    have hrem' := sub (show p.remaining.toInt = p.remaining.toInt from rfl)
      (mul hcycles hS ⟨by omega, by omega⟩) ⟨by omega, by omega⟩
    have hyear' := add hyear
      (mul hcycles (show (400 : Int64).toInt = 400 from rfl) ⟨by omega, by omega⟩)
      ⟨by omega, by omega⟩
    rw [takeCycles, if_pos h]
    exact ⟨k + c, ⟨by dsimp only; omega, by dsimp only; omega⟩, by dsimp only; omega,
      by dsimp only; omega⟩
  · rw [takeCycles, if_neg h]
    exact ⟨k, ⟨hrem, hyear⟩, hpos, not_le.mp (mt hge.mpr h)⟩

/-! ## Years -/

theorem isLeapYear_iff (year : Int32) : isLeapYear year = true ↔ Leap year.toInt := by
  have hdvd (k : Int32) (n : ℤ) (hk : k.toInt = n) : year % k = 0 ↔ n ∣ year.toInt := by
    rw [← Int32.toInt_inj, Int32.toInt_mod, hk, show (0 : Int32).toInt = 0 from rfl,
      Int.dvd_iff_tmod_eq_zero]
  rw [isLeapYear, Leap]
  simp only [hdvd 400 400 rfl, hdvd 100 100 rfl, hdvd 4 4 rfl]
  split_ifs <;> simp only [true_iff, false_iff] <;> omega

theorem toInt_toInt32_of_fits {x : Int64} {n : ℤ} (hx : x.toInt = n) (h : -2147483648 ≤ n)
    (h' : n ≤ 2147483647) : x.toInt32.toInt = n := by
  rw [Int64.toInt_toInt32, hx, Int.bmod_def]
  split_ifs <;> omega

/-- The year that the test for a leap year sees. -/
def shownYear (y : ℤ) : ℤ := if y < -2147483648 then y + 4294967296 else y

variable {year : Int64} {y : ℤ}

theorem toInt_toInt32 (hyear : year.toInt = y) (h : -2147484030 ≤ y) (h' : y ≤ 2147483647) :
    year.toInt32.toInt = shownYear y := by
  rw [Int64.toInt_toInt32, hyear, shownYear, Int.bmod_def]
  split_ifs <;> omega

theorem toInt_secsInYear (hyear : year.toInt = y) (h : -2147484030 ≤ y) (h' : y ≤ 2147483647) :
    (secsInYear year).toInt = daysInYear (shownYear y) * 86400 := by
  have hleap := isLeapYear_iff year.toInt32
  rw [toInt_toInt32 hyear h h'] at hleap
  rw [secsInYear, daysInYear]
  by_cases hl : Leap (shownYear y)
  · rw [if_pos hl, if_pos (hleap.mpr hl)]
    rfl
  · rw [if_neg hl, if_neg (mt hleap.mp hl)]
    rfl

/-- Days before the year as the loop counts them. -/
def loopDays (y : ℤ) : ℤ :=
  if y < -2147483648 then
    daysBeforeYear (y + 4294967296) + (daysBeforeYear (-2147483648) - daysBeforeYear 2147483648)
  else daysBeforeYear y

theorem loopDays_succ : loopDays y + daysInYear (shownYear y) = loopDays (y + 1) := by
  by_cases h : y < -2147483648
  · have hlen := daysBeforeYear_add_daysInYear (y + 4294967296)
    rw [loopDays, shownYear, if_pos h, if_pos h, loopDays]
    by_cases hlast : y + 1 < -2147483648
    · rw [if_pos hlast, show y + 1 + 4294967296 = y + 4294967296 + 1 by omega]
      omega
    · obtain rfl : y = -2147483649 := by omega
      rw [if_neg hlast, show (-2147483649 : ℤ) + 1 = -2147483648 from rfl]
      rw [show (-2147483649 : ℤ) + 4294967296 + 1 = 2147483648 from rfl] at hlen
      omega
  · rw [loopDays, shownYear, if_neg h, if_neg h, loopDays, if_neg (by omega)]
    exact daysBeforeYear_add_daysInYear y

theorem loopDays_mono {y' : ℤ} (h : y ≤ y') : loopDays y ≤ loopDays y' := by
  induction y', h using Int.leInduction with
  | base => exact Int.le_refl _
  | succ k hk ih =>
    have hsucc := loopDays_succ (y := k)
    have hlen : 0 ≤ daysInYear (shownYear k) := by
      rw [daysInYear]
      split_ifs <;> decide
    omega

/-- The only year below 32 bits at which a cycle of the loop begins: the years from there on have
the same leap days as those 2^32 years later. -/
theorem loopDays_cycleStart {k : ℤ} (h : -2147484048 < 1970 + k * 400) :
    loopDays (1970 + k * 400) = daysBeforeYear (1970 + k * 400) := by
  by_cases hlow : 1970 + k * 400 < -2147483648
  · obtain rfl : k = -5368715 := by omega
    decide
  · rw [loopDays, if_neg hlow]

/-- What `p` has left of the seconds `a` since the beginning of year 1. -/
structure AtYear (a : ℤ) (target : ℤ) (p : YearPosition) : Prop where
  remaining : p.remaining.toInt = a - loopDays p.year.toInt * 86400
  nonneg : 0 ≤ p.remaining.toInt
  low : -2147484030 ≤ p.year.toInt
  le : p.year.toInt ≤ target

theorem iterate_backStep (h : 0 ≤ p.remaining.toInt) :
    iterate backStep (rounds p.remaining) p = some p := by
  have hneg : ¬p.remaining < 0 := by
    rw [Int64.lt_iff_toInt_lt, show (0 : Int64).toInt = 0 from rfl]
    omega
  rw [rounds, iterate, backStep, if_neg hneg]

/-- The loop over the years stops at the year of the instant. -/
theorem iterate_yearStep {a target : ℤ} (h : AtYear a target p) (hin : loopDays target * 86400 ≤ a)
    (hin' : a < loopDays (target + 1) * 86400) (htarget : target ≤ 2147483647) :
    ∃ r, iterate yearStep (rounds p.remaining) p = some r ∧ AtYear a target r ∧
      r.year.toInt = target := by
  refine iterate_spec (I := AtYear a target) (fun q => q.remaining.toInt.natAbs) ?_ h
    (Nat.lt_succ_self _)
  intro q ⟨hrem, hnonneg, hlow, hle⟩
  have hsecs := toInt_secsInYear (show q.year.toInt = _ from rfl) hlow (by omega)
  have hsucc := loopDays_succ (y := q.year.toInt)
  have hpos : 0 < daysInYear (shownYear q.year.toInt) := by
    rw [daysInYear]
    split_ifs <;> decide
  have hlt : q.remaining < secsInYear q.year ↔
      q.remaining.toInt < daysInYear (shownYear q.year.toInt) * 86400 := by
    rw [Int64.lt_iff_toInt_lt, hsecs]
  have hqfit := fits_toInt q.remaining
  by_cases h : q.remaining < secsInYear q.year
  · refine .inr ⟨q, by rw [yearStep, if_pos h], ⟨hrem, hnonneg, hlow, hle⟩, ?_⟩
    have h' := hlt.mp h
    -- the loop has not reached the year of the instant as long as a whole year remains
    by_contra hne
    have hmono := loopDays_mono (show q.year.toInt + 1 ≤ target by omega)
    omega
  · have h' := mt hlt.mpr h
    have hrem' : (q.remaining - secsInYear q.year).toInt =
        q.remaining.toInt - daysInYear (shownYear q.year.toInt) * 86400 :=
      sub rfl hsecs ⟨by omega, by have := hqfit.2; omega⟩
    have hyear' : (q.year + 1).toInt = q.year.toInt + 1 :=
      add rfl rfl ⟨by omega, by omega⟩
    refine .inl ⟨_, by rw [yearStep, if_neg h], ⟨?_, ?_, ?_, ?_⟩, ?_⟩ <;>
      simp only [hrem', hyear'] <;> clear hrem' hyear'
    · omega
    · omega
    · omega
    · by_contra hgt
      have hmono := loopDays_mono (show target + 1 ≤ q.year.toInt + 1 by omega)
      omega
    · omega

/-! ## Months -/

theorem daysInMonth_eq {month : Int32} {m : ℤ} (hm : month.toInt = m) (h : 1 ≤ m) (h' : m ≤ 12)
    {isLeap : Bool} (hleap : isLeap = true ↔ Leap y) :
    ∃ dim, daysInMonth month isLeap = some dim ∧ dim.toInt = Gregorian.daysInMonth y m := by
  obtain rfl : month = Int32.ofInt m := by rw [← hm, Int32.ofInt_toInt]
  simp only [Gregorian.daysInMonth, ← hleap]
  clear hm hleap
  cases isLeap <;> interval_cases m <;> exact ⟨_, rfl, rfl⟩

/-- What `q` has left of the seconds `a` since the beginning of the year `y`. -/
structure AtMonth (a y target : ℤ) (q : MonthPosition) : Prop where
  remaining : q.remaining.toInt = a - daysBeforeMonth y q.month.toInt * 86400
  nonneg : 0 ≤ q.remaining.toInt
  low : 1 ≤ q.month.toInt
  le : q.month.toInt ≤ target

/-- The loop over the months stops at the month of the instant. -/
theorem iterate_monthStep {a target : ℤ} {q : MonthPosition} (hyear : year.toInt = y)
    (hy : -2147483648 ≤ y) (hy' : y ≤ 2147483647) (h : AtMonth a y target q)
    (hin : daysBeforeMonth y target * 86400 ≤ a)
    (hin' : a < (daysBeforeMonth y target + Gregorian.daysInMonth y target) * 86400)
    (htarget : target ≤ 12) :
    ∃ r, iterate (monthStep year) (rounds q.remaining) q = some r ∧ AtMonth a y target r ∧
      r.month.toInt = target := by
  refine iterate_spec (I := AtMonth a y target) (fun r => r.remaining.toInt.natAbs) ?_ h
    (Nat.lt_succ_self _)
  intro r ⟨hrem, hnonneg, hlow, hle⟩
  have hleap := isLeapYear_iff year.toInt32
  rw [toInt_toInt32 hyear (by omega) hy', shownYear, if_neg (by omega)] at hleap
  have hmonth : r.month.toInt32.toInt = r.month.toInt :=
    toInt_toInt32_of_fits rfl (by omega) (by omega)
  obtain ⟨dim, hdim, hlen⟩ := daysInMonth_eq hmonth hlow (by omega) hleap
  have hlen28 := le_daysInMonth y r.month.toInt
  have hlen31 := daysInMonth_le y r.month.toInt
  have hsecs : (dim.toInt64 * 86400).toInt = Gregorian.daysInMonth y r.month.toInt * 86400 :=
    mul (by rw [Int32.toInt_toInt64, hlen]) rfl ⟨by omega, by omega⟩
  have hlt : r.remaining < dim.toInt64 * 86400 ↔
      r.remaining.toInt < Gregorian.daysInMonth y r.month.toInt * 86400 := by
    rw [Int64.lt_iff_toInt_lt, hsecs]
  have hfit := fits_toInt r.remaining
  have hstep : monthStep year r =
      if r.remaining < dim.toInt64 * 86400 then some (.inr r)
      else some (.inl ⟨r.remaining - dim.toInt64 * 86400, r.month + 1⟩) := by
    rw [monthStep, hdim, Option.bind_eq_bind, Option.bind_some]
  rw [hstep]
  by_cases h : r.remaining < dim.toInt64 * 86400
  · refine .inr ⟨r, if_pos h, ⟨hrem, hnonneg, hlow, hle⟩, ?_⟩
    have h' := hlt.mp h
    by_contra hne
    have hmono := daysBeforeMonth_le y hlow (show r.month.toInt < target by omega) htarget
    omega
  · have h' := mt hlt.mpr h
    have hne : r.month.toInt ≠ target := by
      intro heq
      rw [heq] at hrem h'
      omega
    have hsucc := daysBeforeMonth_succ y hlow (show r.month.toInt < 12 by omega)
    have hrem' : (r.remaining - dim.toInt64 * 86400).toInt =
        r.remaining.toInt - Gregorian.daysInMonth y r.month.toInt * 86400 :=
      sub rfl hsecs ⟨by omega, by have := hfit.2; omega⟩
    have hmonth' : (r.month + 1).toInt = r.month.toInt + 1 := add rfl rfl ⟨by omega, by omega⟩
    refine .inl ⟨_, if_neg h, ⟨?_, ?_, ?_, ?_⟩, ?_⟩ <;> simp only [hrem', hmonth'] <;>
      clear hrem' hmonth' <;> omega

/-! ## Agreement -/

/-- The fields are the numbers of `t`. -/
structure DateTime.Agrees (dt : DateTime) (t : Ymdhms) : Prop where
  year : dt.year.toInt = t.year.toInt
  month : dt.month.toInt = t.month.toInt
  day : dt.day.toInt = t.day.toInt
  hour : dt.hour.toInt = t.hour.toInt
  minute : dt.minute.toInt = t.minute.toInt
  second : dt.second.toInt = t.second.toInt

/-- Every field is in its range. -/
def DateTime.InRange (dt : DateTime) : Prop :=
  IsDate dt.year.toInt dt.month.toInt dt.day.toInt ∧
    IsTime dt.hour.toInt dt.minute.toInt dt.second.toInt

instance (dt : DateTime) : Decidable dt.InRange := inferInstanceAs (Decidable (_ ∧ _))

theorem DateTime.Agrees.inRange {dt : DateTime} {t : Ymdhms} (h : dt.Agrees t)
    (ht : t.IsDateTime) : dt.InRange := by
  obtain ⟨hy, hm, hd, hh, hmi, hs⟩ := h
  rw [DateTime.InRange, hy, hm, hd, hh, hmi, hs]
  exact ht

variable {e : Int64} {t : Ymdhms}

/-- The seconds of the day at the time of `t`. -/
def secondOfDay (t : Ymdhms) : ℤ := t.hour.toInt * 3600 + t.minute.toInt * 60 + t.second.toInt

theorem secondOfDay_bounds (ht : t.IsDateTime) : 0 ≤ secondOfDay t ∧ secondOfDay t < 86400 := by
  obtain ⟨-, ⟨hh, hh'⟩, ⟨hmi, hmi'⟩, hs, hs'⟩ := ht
  rw [secondOfDay]
  omega

/-- The seconds of its year at the date and the time of `t`. -/
def secondOfYear (t : Ymdhms) : ℤ :=
  (daysBeforeMonth t.year.toInt t.month.toInt + (t.day.toInt - 1)) * 86400 + secondOfDay t

/-- `t` is the instant `e`, in a year of 32 bits. -/
structure IsInstantOf (t : Ymdhms) (e : Int64) : Prop where
  isDateTime : t.IsDateTime
  exact : t.exactSeconds = e.toInt
  low : -2147483648 ≤ t.year.toInt
  high : t.year.toInt ≤ 2147483647

namespace IsInstantOf

section

variable (h : IsInstantOf t e)

include h

theorem secondOfYear_bounds :
    0 ≤ secondOfYear t ∧ secondOfYear t < daysInYear t.year.toInt * 86400 := by
  obtain ⟨hday, hday'⟩ := dayOfYear_bounds h.isDateTime.1
  obtain ⟨hsec, hsec'⟩ := secondOfDay_bounds h.isDateTime
  rw [secondOfYear]
  omega

/-- The instant told from the beginning of year 1. -/
theorem toInt_eq :
    e.toInt + 719162 * 86400 = daysBeforeYear t.year.toInt * 86400 + secondOfYear t := by
  rw [← h.exact, Ymdhms.exactSeconds, epochSeconds, dayNumber, secondOfYear, secondOfDay]
  omega

theorem countable : Countable e := by
  obtain ⟨hsec, hsec'⟩ := h.secondOfYear_bounds
  have heq := h.toInt_eq
  have hlo := h.low
  have hhi := h.high
  have hlen : daysInYear t.year.toInt ≤ 366 := by
    rw [daysInYear]
    split_ifs <;> decide
  simp only [daysBeforeYear] at heq
  exact ⟨by omega, by omega⟩

/-- After the jump the loop over the years starts in the cycle of the instant. -/
theorem atYear {k : ℤ} (hp : AtCycle e p k) (hnonneg : 0 ≤ p.remaining.toInt)
    (hlt : p.remaining.toInt < 12622780800) : AtYear (e.toInt + 719162 * 86400) t.year.toInt p := by
  obtain ⟨hrem, hyear⟩ := hp
  obtain ⟨hsec, hsec'⟩ := h.secondOfYear_bounds
  have heq := h.toInt_eq
  have hlow := h.low
  have hcycles := daysBeforeYear_add_cycles 1970 k
  rw [show daysBeforeYear 1970 = 719162 from rfl, Int.mul_comm, ← hyear] at hcycles
  have hnext := daysBeforeYear_add_cycles p.year.toInt 1
  have hlast := daysBeforeYear_add_daysInYear t.year.toInt
  have hle : p.year.toInt ≤ t.year.toInt := by
    by_contra hgt
    have hmono := daysBeforeYear_mono (show t.year.toInt + 1 ≤ p.year.toInt by omega)
    omega
  have hgt : t.year.toInt < p.year.toInt + 400 := by
    by_contra hge
    have hmono := daysBeforeYear_mono (show p.year.toInt + 400 * 1 ≤ t.year.toInt by omega)
    omega
  have hstart := loopDays_cycleStart (k := k) (by omega)
  rw [← hyear] at hstart
  exact ⟨by omega, hnonneg, by omega, hle⟩

/-- Where the loop over the years stops. -/
theorem exists_year (hp : AtYear (e.toInt + 719162 * 86400) t.year.toInt p) :
    ∃ r, iterate yearStep (rounds p.remaining) p = some r ∧ r.year.toInt = t.year.toInt ∧
      r.remaining.toInt = secondOfYear t := by
  obtain ⟨hsec, hsec'⟩ := h.secondOfYear_bounds
  have heq := h.toInt_eq
  have hlow := h.low
  have hthis : loopDays t.year.toInt = daysBeforeYear t.year.toInt := if_neg (by omega)
  have hnext : loopDays (t.year.toInt + 1) = daysBeforeYear (t.year.toInt + 1) :=
    if_neg (by omega)
  have hlast := daysBeforeYear_add_daysInYear t.year.toInt
  obtain ⟨r, hr, hat, hyear⟩ := iterate_yearStep hp (by omega) (by omega) h.high
  have hrem := hat.remaining
  rw [hyear] at hrem
  exact ⟨r, hr, hyear, by omega⟩

/-- Where the loop over the months stops. -/
theorem exists_month {remaining : Int64} (hyear : year.toInt = t.year.toInt)
    (hrem : remaining.toInt = secondOfYear t) :
    ∃ q, iterate (monthStep year) (rounds remaining) ⟨remaining, 1⟩ = some q ∧
      q.month.toInt = t.month.toInt ∧
      q.remaining.toInt = (t.day.toInt - 1) * 86400 + secondOfDay t := by
  obtain ⟨⟨hm, hm', hd, hd'⟩, -⟩ := h.isDateTime
  obtain ⟨hsec, hsec'⟩ := secondOfDay_bounds h.isDateTime
  have hnonneg := h.secondOfYear_bounds.1
  have hfirst := daysBeforeMonth_one t.year.toInt
  have hstart : AtMonth (secondOfYear t) t.year.toInt t.month.toInt ⟨remaining, 1⟩ := by
    refine ⟨?_, ?_, ?_, ?_⟩ <;> simp only [hrem, show (1 : Int64).toInt = 1 from rfl, hfirst] <;>
      omega
  obtain ⟨q, hq, hat, hmonth⟩ := iterate_monthStep hyear h.low h.high hstart
    (by rw [secondOfYear]; omega) (by rw [secondOfYear]; omega) hm'
  have hleft := hat.remaining
  rw [hmonth, secondOfYear] at hleft
  exact ⟨q, hq, hmonth, by omega⟩

theorem agrees_dateTimeOf {month remaining : Int64} (hyear : year.toInt = t.year.toInt)
    (hmonth : month.toInt = t.month.toInt)
    (hrem : remaining.toInt = (t.day.toInt - 1) * 86400 + secondOfDay t) :
    (dateTimeOf year month remaining).Agrees t := by
  obtain ⟨hsec, hsec'⟩ := secondOfDay_bounds h.isDateTime
  obtain ⟨⟨hm, hm', hd, hd'⟩, ⟨hh, hh'⟩, ⟨hmi, hmi'⟩, hs, hs'⟩ := h.isDateTime
  have hlen := daysInMonth_le t.year.toInt t.month.toInt
  have hlow := h.low
  have hhigh := h.high
  rw [secondOfDay] at hrem hsec hsec'
  have hday := add (div hrem (show (86400 : Int64).toInt = 86400 from rfl) (by omega) (by decide))
    (show (1 : Int64).toInt = 1 from rfl) ⟨by omega, by omega⟩
  have hofDay := toInt_mod hrem (show (86400 : Int64).toInt = 86400 from rfl) (by omega)
  have hhour := div hofDay (show (3600 : Int64).toInt = 3600 from rfl) (by omega) (by decide)
  have hofHour := toInt_mod hofDay (show (3600 : Int64).toInt = 3600 from rfl) (by omega)
  have hminute := div hofHour (show (60 : Int64).toInt = 60 from rfl) (by omega) (by decide)
  have hsecond := toInt_mod hofHour (show (60 : Int64).toInt = 60 from rfl) (by omega)
  exact {
    year := toInt_toInt32_of_fits hyear (by omega) (by omega)
    month := toInt_toInt32_of_fits hmonth (by omega) (by omega)
    day := (toInt_toInt32_of_fits hday (by omega) (by omega)).trans (by omega)
    hour := (toInt_toInt32_of_fits hhour (by omega) (by omega)).trans (by omega)
    minute := (toInt_toInt32_of_fits hminute (by omega) (by omega)).trans (by omega)
    second := (toInt_toInt32_of_fits hsecond (by omega) (by omega)).trans (by omega) }

end

end IsInstantOf

theorem fromTimestamp_eq {r : YearPosition} {q : MonthPosition}
    (h : 0 ≤ (takeCycles (borrowCycles e)).remaining.toInt)
    (hr : iterate yearStep (rounds (takeCycles (borrowCycles e)).remaining)
      (takeCycles (borrowCycles e)) = some r)
    (hq : iterate (monthStep r.year) (rounds r.remaining) ⟨r.remaining, 1⟩ = some q) :
    fromTimestamp e = some (dateTimeOf r.year q.month q.remaining) := by
  show (iterate backStep _ _).bind _ = _
  rw [iterate_backStep h, Option.bind_some, hr]
  show (iterate _ _ _).bind _ = _
  rw [hq, Option.bind_some]

/-- For an instant of a year of 32 bits the function returns, its fields are those that the native
functions return, and they are in their ranges. -/
theorem fromTimestamp_agrees (epochSecs : Int64)
    (hlo : -2147483648 ≤ (kryosTimeYearUtc epochSecs).toInt)
    (hhi : (kryosTimeYearUtc epochSecs).toInt ≤ 2147483647) :
    ∃ dt, fromTimestamp epochSecs = some dt ∧ dt.Agrees (componentsUtc epochSecs) ∧
      dt.InRange := by
  obtain ⟨hdateTime, hexact⟩ := componentsUtc_exact epochSecs
  have h : IsInstantOf (componentsUtc epochSecs) epochSecs := ⟨hdateTime, hexact, hlo, hhi⟩
  obtain ⟨k, hborrow, hpos, hk, hk'⟩ := atCycle_borrowCycles h.countable
  obtain ⟨k', htake, hpos', hlt⟩ := atCycle_takeCycles h.countable hborrow hpos hk hk'
  obtain ⟨r, hr, hyear, hrem⟩ := h.exists_year (h.atYear htake hpos' hlt)
  obtain ⟨q, hq, hmonth, hleft⟩ := h.exists_month hyear hrem
  have hagrees := h.agrees_dateTimeOf hyear hmonth hleft
  exact ⟨_, fromTimestamp_eq hpos' hr hq, hagrees, hagrees.inRange hdateTime⟩

/-- The last second before the epoch. -/
theorem fromTimestamp_agrees_before_epoch :
    (-2147483648 ≤ (kryosTimeYearUtc (-1)).toInt ∧ (kryosTimeYearUtc (-1)).toInt ≤ 2147483647) ∧
      ∃ dt, fromTimestamp (-1) = some dt ∧ dt.Agrees (componentsUtc (-1)) ∧ dt.InRange :=
  ⟨by decide, fromTimestamp_agrees (-1) (by decide) (by decide)⟩

example : fromTimestamp (-1) = some ⟨1969, 12, 31, 23, 59, 59⟩ := by decide +kernel

end Kryos.Stdlib.FromTimestamp

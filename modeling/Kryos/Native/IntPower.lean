import Kryos.Native.IntOps
import Mathlib.Algebra.Order.Field.Power
import Mathlib.Algebra.Order.Floor.Ring
import Mathlib.Data.Rat.Floor

/-!
# The integer power of the runtime

`kryos_ipow` against powers of rational numbers. With a non-negative exponent the exact power is
reduced to a signed word; with a negative one the power is a fraction, of which the integer part
stays.

## Main result

* `Native.kryosIpow_toInt`
-/

namespace Kryos

namespace Native

/-- The integer part of `q`, rounding toward zero. -/
def truncate (q : ℚ) : ℤ := if 0 ≤ q then ⌊q⌋ else ⌈q⌉

@[simp] theorem truncate_intCast (z : ℤ) : truncate z = z := by
  rw [truncate, Int.floor_intCast, Int.ceil_intCast, ite_self]

theorem truncate_eq_zero {q : ℚ} (h : |q| < 1) : truncate q = 0 := by
  obtain ⟨hlo, hhi⟩ := abs_lt.mp h
  rw [truncate]
  split_ifs with hq
  · exact Int.floor_eq_zero_iff.mpr ⟨hq, hhi⟩
  · exact Int.ceil_eq_zero_iff.mpr ⟨hlo, (not_le.mp hq).le⟩

/-- A negative power of an integer other than the units has integer part `0`. -/
theorem truncate_zpow_of_two_le {b e : ℤ} (hb : 2 ≤ |b|) (he : e < 0) :
    truncate ((b : ℚ) ^ e) = 0 := by
  have hone : (1 : ℚ) < |(b : ℚ)| := by
    rw [← Int.cast_abs]
    exact_mod_cast hb
  refine truncate_eq_zero ?_
  rw [abs_zpow]
  exact zpow_lt_one_of_neg₀ hone he

theorem truncate_neg_one_zpow (e : ℤ) :
    truncate ((-1 : ℚ) ^ e) = if e % 2 = 0 then 1 else -1 := by
  rcases Int.even_or_odd e with h | h
  · rw [h.neg_one_zpow, if_pos (Int.even_iff.mp h)]
    exact truncate_intCast 1
  · rw [h.neg_one_zpow, if_neg (by rw [Int.odd_iff.mp h]; decide)]
    exact truncate_intCast (-1)

/-- The early return of `kryos_ipow`: which integer part a negative power has. -/
theorem kryosIpow_of_neg {base exp : I64} (h : exp.toInt < 0) :
    (kryosIpow base exp).toInt = truncate ((base.toInt : ℚ) ^ exp.toInt) := by
  rw [kryosIpow, if_pos h]
  by_cases hone : base = 1
  · subst hone
    rw [if_pos rfl, show ((1 : I64).toInt : ℚ) = 1 from rfl, one_zpow]
    exact (truncate_intCast 1).symm
  by_cases hneg : base = -1
  · subst hneg
    rw [if_neg hone, if_pos rfl, show ((-1 : I64).toInt : ℚ) = -1 by decide, truncate_neg_one_zpow]
    split_ifs <;> rfl
  rw [if_neg hone, if_neg hneg]
  by_cases hzero : base = 0
  · subst hzero
    rw [show ((0 : I64).toInt : ℚ) = 0 from rfl, zero_zpow _ h.ne]
    exact (truncate_intCast 0).symm
  · have ne : ∀ c : I64, base ≠ c → base.toInt ≠ c.toInt :=
      fun c hc e => hc (BitVec.eq_of_toInt_eq e)
    have h1 : base.toInt ≠ 1 := ne 1 hone
    have h2 : base.toInt ≠ -1 := ne (-1) hneg
    have h3 : base.toInt ≠ 0 := ne 0 hzero
    rw [truncate_zpow_of_two_le (le_abs.mpr (by omega)) h]
    rfl

/-- The power is exact modulo `2 ^ 64`, and truncated where it is a fraction; a negative power of
`0` counts as `0`. -/
theorem kryosIpow_toInt (base exp : I64) :
    (kryosIpow base exp).toInt =
      if 0 ≤ exp.toInt then (base.toInt ^ exp.toInt.toNat).bmod (2 ^ 64)
      else if base.toInt = 0 then 0
      else truncate ((base.toInt : ℚ) ^ exp.toInt) := by
  by_cases h : 0 ≤ exp.toInt
  · have hexp : exp.toInt.toNat = exp.toNat := by
      have := BitVec.toInt_eq_toNat_cond exp
      have := exp.isLt
      split_ifs at * <;> omega
    rw [if_pos h, kryosIpow_of_nonneg h, hexp, ← MachineInt.ofInt_toInt_pow, BitVec.toInt_ofInt]
  · rw [if_neg h, kryosIpow_of_neg (not_le.mp h)]
    by_cases hzero : base.toInt = 0
    · rw [if_pos hzero, hzero, Int.cast_zero, zero_zpow _ (by omega)]
      exact truncate_intCast 0
    · rw [if_neg hzero]

/-- The odd negative power of `-1` keeps its sign. -/
example : kryosIpow (-1) (-3) = -1 ∧ kryosIpow 3 (-1) = 0 := by decide

end Native

end Kryos

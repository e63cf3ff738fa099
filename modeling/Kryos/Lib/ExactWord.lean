import Mathlib.Algebra.Order.Ring.Int
import Mathlib.Data.Int.Basic

/-!
# Exact results of wrapping `Int64` arithmetic

The value of a sum, a difference, a product or a quotient of words whose values are known, as long
as the exact result fits. A computation of several steps is read off by applying these rules from
the inside out. Nothing here is specific to one program.
-/

namespace ExactWord

variable {a b c : Int64} {m n : ℤ}

/-- A signed 64-bit word holds the number. -/
def Fits (n : ℤ) : Prop := -9223372036854775808 ≤ n ∧ n < 9223372036854775808

instance (n : ℤ) : Decidable (Fits n) := inferInstanceAs (Decidable (_ ∧ _))

theorem fits_toInt (a : Int64) : Fits a.toInt := ⟨a.le_toInt, a.toInt_lt⟩

theorem bmod_of_fits (h : Fits n) : n.bmod (2 ^ 64) = n :=
  Int.bmod_eq_of_le (by have := h.1; omega) (by have := h.2; omega)

theorem toInt_ofInt_of_fits (h : Fits n) : (Int64.ofInt n).toInt = n :=
  Int64.toInt_ofInt_of_le h.1 h.2

theorem add (ha : a.toInt = m) (hb : b.toInt = n) (h : Fits (m + n)) : (a + b).toInt = m + n := by
  rw [Int64.toInt_add, ha, hb, bmod_of_fits h]

theorem sub (ha : a.toInt = m) (hb : b.toInt = n) (h : Fits (m - n)) : (a - b).toInt = m - n := by
  rw [Int64.toInt_sub, ha, hb, bmod_of_fits h]

theorem mul (ha : a.toInt = m) (hb : b.toInt = n) (h : Fits (m * n)) : (a * b).toInt = m * n := by
  rw [Int64.toInt_mul, ha, hb, bmod_of_fits h]

theorem fits_ediv (h : Fits m) (hn : 0 < n) : Fits (m / n) := by
  obtain ⟨hlo, hhi⟩ := h
  rcases le_or_gt 0 m with hm | hm
  · have hle := Int.ediv_le_self n hm
    have hpos := Int.ediv_nonneg hm hn.le
    exact ⟨by omega, by omega⟩
  · have hle : m ≤ m / n := by
      rw [Int.le_ediv_iff_mul_le hn]
      exact mul_le_of_one_le_right hm.le hn
    have hneg := Int.ediv_neg_of_neg_of_pos hm hn
    exact ⟨by omega, by omega⟩

/-- Truncating division of a number that is not negative rounds down. -/
theorem div (ha : a.toInt = m) (hb : b.toInt = n) (hm : 0 ≤ m) (hn : 0 < n) :
    (a / b).toInt = m / n := by
  rw [Int64.toInt_div, ha, hb, Int.tdiv_eq_ediv_of_nonneg hm,
    bmod_of_fits (fits_ediv (ha ▸ fits_toInt a) hn)]

theorem neg_ediv_eq (m : ℤ) (hn : 0 < n) : (n - 1 - m) / n = -(m / n) := by
  have hr := Int.emod_nonneg m hn.ne'
  have hr' := Int.emod_lt_of_pos m hn
  have hm := Int.mul_ediv_add_emod m n
  have hsplit : n - 1 - m = n - 1 - m % n + n * -(m / n) := by
    rw [Int.mul_neg]
    omega
  rw [hsplit, Int.add_mul_ediv_left _ _ hn.ne', Int.ediv_eq_zero_of_lt (by omega) (by omega),
    Int.zero_add]

/-- The usual correction of a negative dividend: the quotient rounds down for both signs. -/
theorem floorDiv (ha : a.toInt = m) (hb : b.toInt = n) (hc : c.toInt = n - 1) (hn : 0 < n)
    (h : Fits (m - (n - 1))) : ((if a ≥ 0 then a else a - c) / b).toInt = m / n := by
  have hquot : Fits (m / n) := fits_ediv (ha ▸ fits_toInt a) hn
  have hsign : a ≥ 0 ↔ 0 ≤ m := by
    rw [ge_iff_le, Int64.le_iff_toInt_le, ha, Int64.toInt_zero]
  split_ifs with hpos
  · exact div ha hb (hsign.mp hpos) hn
  · have hneg : m < 0 := by
      rw [hsign] at hpos
      omega
    have htrunc : (m - (n - 1)).tdiv n = m / n := by
      rw [show m - (n - 1) = -(n - 1 - m) by omega, Int.neg_tdiv,
        Int.tdiv_eq_ediv_of_nonneg (by omega), neg_ediv_eq m hn, Int.neg_neg]
    rw [Int64.toInt_div, sub ha hc h, hb, htrunc, bmod_of_fits hquot]

/-! ## Division that traps -/

/-- Division as a program does it that traps on a division by zero and on an overflow. -/
def checkedDiv (a b : Int64) : Option Int64 :=
  if b = 0 ∨ a = Int64.minValue ∧ b = -1 then none else some (a / b)

def checkedRem (a b : Int64) : Option Int64 :=
  if b = 0 ∨ a = Int64.minValue ∧ b = -1 then none else some (a % b)

theorem checkedDiv_of_pos (hb : b.toInt = n) (hn : 0 < n) : checkedDiv a b = some (a / b) := by
  refine if_neg ?_
  rintro (rfl | ⟨-, rfl⟩)
  · rw [Int64.toInt_zero] at hb
    omega
  · rw [show (-1 : Int64).toInt = -1 from rfl] at hb
    omega

theorem checkedRem_of_ne (hb : b.toInt ≠ 0) (h : 0 ≤ a.toInt ∨ 0 ≤ b.toInt) :
    checkedRem a b = some (a % b) := by
  refine if_neg ?_
  rintro (rfl | ⟨rfl, rfl⟩)
  · exact hb Int64.toInt_zero
  · revert h
    decide

end ExactWord

import Mathlib.Algebra.Order.Ring.Int
import Mathlib.Algebra.Order.Group.Nat
import Mathlib.Tactic.Ring
import Mathlib.Tactic.Linarith

/-!
# Arithmetic in 32 and in 64 bits

When an operation on numbers of 32 bits, sign-extended afterwards, is the operation in 64 bits on
the sign-extended numbers. Addition, subtraction and multiplication agree as long as the exact
result has 32 bits; shifts also differ in how many bits of the count they read.

## Main results

* `Widen.signExtend_add`, `Widen.signExtend_mul`, `Widen.signExtend_neg` — no overflow
* `Widen.signExtend_shiftLeft`, `Widen.signExtend_sshiftRight` — counts of 32 and more
* `Widen.tdiv_eq_shift_iff` — an arithmetic shift divides what it leaves no rest of, and what is
  not negative
-/

namespace Widen

/-- The numbers that have 32 bits. -/
def Fits (x : ℤ) : Prop := -2 ^ 31 ≤ x ∧ x < 2 ^ 31

instance (x : ℤ) : Decidable (Fits x) := inferInstanceAs (Decidable (_ ∧ _))

variable {a b v : BitVec 32} {x : ℤ}

theorem fits_toInt (v : BitVec 32) : Fits v.toInt := ⟨v.le_toInt, v.toInt_lt⟩

theorem toInt_signExtend (v : BitVec 32) : (v.signExtend 64).toInt = v.toInt :=
  BitVec.toInt_signExtend_of_le (by decide)

theorem bmod_eq_self_iff : x.bmod (2 ^ 32) = x ↔ Fits x := by
  rw [Fits, Int.bmod_def]
  split_ifs <;> omega

theorem bmod_eq_self (h : -2 ^ 62 ≤ x) (h' : x ≤ 2 ^ 62) : x.bmod (2 ^ 64) = x :=
  Int.bmod_eq_of_le_mul_two (by omega) (by omega)

/-- What is exact in 64 bits is the same in 32 bits if it fits. -/
theorem signExtend_eq_iff {w : BitVec 64} (hv : v.toInt = x.bmod (2 ^ 32)) (hw : w.toInt = x) :
    v.signExtend 64 = w ↔ Fits x := by
  rw [← BitVec.toInt_inj, toInt_signExtend, hv, hw, bmod_eq_self_iff]

theorem signExtend_add (a b : BitVec 32) :
    (a + b).signExtend 64 = a.signExtend 64 + b.signExtend 64 ↔ Fits (a.toInt + b.toInt) := by
  have ha := fits_toInt a
  have hb := fits_toInt b
  refine signExtend_eq_iff (BitVec.toInt_add ..) ?_
  rw [BitVec.toInt_add, toInt_signExtend, toInt_signExtend]
  rw [Fits] at ha hb
  exact bmod_eq_self (by omega) (by omega)

theorem signExtend_sub (a b : BitVec 32) :
    (a - b).signExtend 64 = a.signExtend 64 - b.signExtend 64 ↔ Fits (a.toInt - b.toInt) := by
  have ha := fits_toInt a
  have hb := fits_toInt b
  refine signExtend_eq_iff (BitVec.toInt_sub ..) ?_
  rw [BitVec.toInt_sub, toInt_signExtend, toInt_signExtend]
  rw [Fits] at ha hb
  exact bmod_eq_self (by omega) (by omega)

theorem signExtend_mul (a b : BitVec 32) :
    (a * b).signExtend 64 = a.signExtend 64 * b.signExtend 64 ↔ Fits (a.toInt * b.toInt) := by
  refine signExtend_eq_iff (BitVec.toInt_mul ..) ?_
  rw [BitVec.toInt_mul, toInt_signExtend, toInt_signExtend]
  exact bmod_eq_self BitVec.le_toInt_mul_toInt BitVec.toInt_mul_toInt_le

theorem signExtend_neg (v : BitVec 32) :
    (-v).signExtend 64 = -v.signExtend 64 ↔ v.toInt ≠ -2 ^ 31 := by
  have hv := fits_toInt v
  have hfits : Fits (-v.toInt) ↔ v.toInt ≠ -2 ^ 31 := by
    rw [Fits] at hv ⊢
    omega
  rw [← hfits]
  refine signExtend_eq_iff BitVec.toInt_neg ?_
  rw [BitVec.toInt_neg, toInt_signExtend]
  rw [Fits] at hv
  exact bmod_eq_self (by omega) (by omega)

/-! ### Shifts -/

/-- The count of a shift in 64 bits. -/
def count (b : BitVec 32) : ℕ := (b.toInt % 64).toNat

theorem toNat_mod_64 (b : BitVec 32) : (b.signExtend 64).toNat % 64 = count b := by
  have h := BitVec.toInt_eq_toNat_cond (b.signExtend 64)
  rw [toInt_signExtend] at h
  rw [count, h]
  split_ifs <;> omega

theorem toNat_mod_32 (b : BitVec 32) : b.toNat % 32 = count b % 32 := by
  have h := BitVec.toInt_eq_toNat_cond b
  rw [count, h]
  split_ifs <;> omega

theorem count_lt (b : BitVec 32) : count b < 64 := by
  rw [count]
  omega

theorem toInt_shiftLeft {w : ℕ} (v : BitVec w) (n : ℕ) :
    (v <<< n).toInt = (v.toInt * 2 ^ n).bmod (2 ^ w) := by
  rw [BitVec.toInt_shiftLeft, BitVec.toInt_eq_toNat_bmod, Int.bmod_mul_bmod, Nat.shiftLeft_eq,
    Nat.cast_mul, Nat.cast_pow]
  rfl

theorem toInt_sshiftRight {w : ℕ} (v : BitVec w) (n : ℕ) :
    (v.sshiftRight n).toInt = v.toInt / 2 ^ n := by
  rw [BitVec.toInt_sshiftRight, Int.shiftRight_eq_div_pow]
  rfl

theorem mul_two_pow_bounds (v : BitVec 32) {k : ℕ} (hk : k < 32) :
    -2 ^ 62 ≤ v.toInt * 2 ^ k ∧ v.toInt * 2 ^ k ≤ 2 ^ 62 := by
  obtain ⟨hlow, hhigh⟩ := fits_toInt v
  have hpow : (2 : ℤ) ^ k ≤ 2 ^ 31 := pow_le_pow_right₀ (by decide) (Nat.le_of_lt_succ hk)
  have hpos : (0 : ℤ) < 2 ^ k := by positivity
  have habove := mul_nonneg (sub_nonneg.mpr hhigh.le) hpos.le
  have hbelow := mul_nonneg (sub_nonneg.mpr hlow) hpos.le
  constructor <;> linarith

/-- A number that `2 ^ n` divides, and that is small, is zero. -/
theorem eq_zero_of_dvd_of_fits (hdvd : (2 ^ 32 : ℤ) ∣ x) (h : Fits x) : x = 0 := by
  obtain ⟨c, rfl⟩ := hdvd
  obtain ⟨hlow, hhigh⟩ := h
  have hc : c = 0 := by omega
  rw [hc, mul_zero]

/-- Counts of 32 and more shift everything out in the low half of 64 bits. -/
theorem shiftLeft_eq_iff (v : BitVec 32) {k : ℕ} (hk : 32 ≤ k) (hk' : k < 64) :
    (v.toInt * 2 ^ (k - 32)).bmod (2 ^ 32) = (v.toInt * 2 ^ k).bmod (2 ^ 64) ↔
      (2 : ℤ) ^ (64 - k) ∣ v.toInt := by
  have hsplit : (2 : ℤ) ^ (64 - k) * 2 ^ (k - 32) = 2 ^ 32 := by
    rw [← pow_add]
    congr 1
    omega
  have hpow : v.toInt * 2 ^ k = 2 ^ 32 * (v.toInt * 2 ^ (k - 32)) := by
    rw [mul_left_comm, ← pow_add]
    congr 2
    omega
  constructor
  · intro heq
    have hfits : Fits ((v.toInt * 2 ^ (k - 32)).bmod (2 ^ 32)) := by
      rw [← bmod_eq_self_iff, Int.bmod_bmod]
    have hdvd : (2 ^ 32 : ℤ) ∣ (v.toInt * 2 ^ k).bmod (2 ^ 64) := by
      rw [hpow, Int.bmod_def]
      split_ifs <;> omega
    have hzero := eq_zero_of_dvd_of_fits (heq ▸ hdvd) hfits
    have hrest := Int.dvd_of_bmod_eq_zero hzero
    rw [Nat.cast_pow, Nat.cast_ofNat, ← hsplit] at hrest
    exact Int.dvd_of_mul_dvd_mul_right (by positivity) hrest
  · rintro ⟨c, hc⟩
    have hlow : v.toInt * 2 ^ (k - 32) = 2 ^ 32 * c := by
      rw [hc, mul_right_comm, hsplit]
    rw [hpow, hlow, Int.bmod_def, Int.bmod_def]
    split_ifs <;> omega

theorem signExtend_shiftLeft (a b : BitVec 32) :
    (a <<< (b.toNat % 32)).signExtend 64 =
      a.signExtend 64 <<< ((b.signExtend 64).toNat % 64) ↔
    if count b < 32 then Fits (a.toInt * 2 ^ count b) else (2 : ℤ) ^ (64 - count b) ∣ a.toInt := by
  have hlt := count_lt b
  rw [toNat_mod_64, toNat_mod_32]
  split_ifs with hk
  · obtain ⟨hlow, hhigh⟩ := mul_two_pow_bounds a hk
    rw [Nat.mod_eq_of_lt hk]
    refine signExtend_eq_iff (toInt_shiftLeft ..) ?_
    rw [toInt_shiftLeft, toInt_signExtend, bmod_eq_self hlow hhigh]
  · have hmod : count b % 32 = count b - 32 := by omega
    rw [hmod, ← BitVec.toInt_inj, toInt_signExtend, toInt_shiftLeft, toInt_shiftLeft,
      toInt_signExtend, shiftLeft_eq_iff a (Nat.not_lt.mp hk) hlt]

/-- An arithmetic shift by 32 and more leaves the sign. -/
theorem ediv_two_pow_eq_iff (v : BitVec 32) (j : ℕ) :
    v.toInt / 2 ^ j = v.toInt / 2 ^ (j + 32) ↔ -2 ^ j ≤ v.toInt ∧ v.toInt < 2 ^ j := by
  obtain ⟨hlow, hhigh⟩ := fits_toInt v
  have hpos : (0 : ℤ) < 2 ^ j := by positivity
  have hbig : (0 : ℤ) < 2 ^ (j + 32) := by positivity
  have hle : (2 : ℤ) ^ 32 ≤ 2 ^ (j + 32) := pow_le_pow_right₀ (by decide) (Nat.le_add_left _ _)
  by_cases hneg : v.toInt < 0
  · have hsign : v.toInt / 2 ^ (j + 32) = -1 :=
      (Int.ediv_eq_iff_of_pos hbig).mpr (by omega)
    rw [hsign, Int.ediv_eq_iff_of_pos hpos]
    omega
  · have hsign : v.toInt / 2 ^ (j + 32) = 0 :=
      (Int.ediv_eq_iff_of_pos hbig).mpr (by omega)
    rw [hsign, Int.ediv_eq_iff_of_pos hpos]
    omega

theorem signExtend_sshiftRight (a b : BitVec 32) :
    (a.sshiftRight (b.toNat % 32)).signExtend 64 =
      (a.signExtend 64).sshiftRight ((b.signExtend 64).toNat % 64) ↔
    (32 ≤ count b → -2 ^ (count b - 32) ≤ a.toInt ∧ a.toInt < 2 ^ (count b - 32)) := by
  have hlt := count_lt b
  rw [toNat_mod_64, toNat_mod_32, ← BitVec.toInt_inj, toInt_signExtend, toInt_sshiftRight,
    toInt_sshiftRight, toInt_signExtend]
  by_cases hk : count b < 32
  · rw [Nat.mod_eq_of_lt hk]
    exact iff_of_true rfl fun h => absurd h (Nat.not_le.mpr hk)
  · have hmod : count b % 32 = count b - 32 := by omega
    have hiff := ediv_two_pow_eq_iff a (count b - 32)
    rw [Nat.sub_add_cancel (Nat.not_lt.mp hk)] at hiff
    rw [hmod, hiff]
    exact ⟨fun h _ => h, fun h => h (Nat.not_lt.mp hk)⟩

/-! ### Division -/

/-- A shift rounds down, a division truncates. -/
theorem tdiv_eq_shift_iff (x : ℤ) (k : ℕ) :
    x.tdiv (2 ^ k) = x / 2 ^ k ↔ 0 ≤ x ∨ (2 : ℤ) ^ k ∣ x := by
  have hpos : (0 : ℤ) < 2 ^ k := by positivity
  rw [Int.tdiv_eq_ediv]
  split_ifs with h
  · rw [add_zero]
    exact iff_of_true rfl h
  · refine iff_of_false ?_ h
    rw [Int.sign_eq_one_of_pos hpos]
    omega

end Widen

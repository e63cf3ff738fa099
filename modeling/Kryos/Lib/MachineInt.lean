import Mathlib.Data.BitVec
import Mathlib.NumberTheory.Multiplicity
import Mathlib.Tactic.Ring

/-!
# Two's-complement machine integers

Arithmetic on `BitVec w` in the three flavours machine code and compilers use: wrapping (Lean's own
operations), checked (an answer only when the exact result is representable), and trapping
division. Nothing here is specific to one program.

## Main definitions

* `MachineInt.checkedAdd`, `checkedSub`, `checkedMul`, `checkedDiv`, `checkedRem`, `checkedNeg`,
  `checkedShl`, `checkedShr`, `checkedPow` — exact result or `none`
* `MachineInt.Representable` — the integers a signed word of width `w` can hold

## Main results

* `MachineInt.powLoop_eq` — square-and-multiply computes the wrapping power
* `MachineInt.two_pow_dvd_pow_sub_pow_iff` — when two powers of an integer with exponents congruent
  modulo `2 ^ 32` are congruent modulo `2 ^ 64`
* `MachineInt.sdiv_eq_ofInt`, `shiftLeft_eq_ofInt`, … — a word operation is the residue of the exact
  one
-/

namespace MachineInt

variable {w : ℕ}

/-! ## Checked arithmetic -/

/-- `x` is the value of a signed word of width `w`. -/
def Representable (w : ℕ) (x : ℤ) : Prop := -2 ^ (w - 1) ≤ x ∧ x < 2 ^ (w - 1)

instance (w : ℕ) (x : ℤ) : Decidable (Representable w x) := inferInstanceAs (Decidable (_ ∧ _))

/-- `Some` of the wrapped result exactly when it did not overflow. -/
def unlessOverflow (overflow : Bool) (x : BitVec w) : Option (BitVec w) :=
  if overflow then none else some x

@[simp] theorem unlessOverflow_eq_some {o : Bool} {x y : BitVec w} :
    unlessOverflow o x = some y ↔ o = false ∧ x = y := by
  cases o <;> simp [unlessOverflow]

@[simp] theorem unlessOverflow_eq_none {o : Bool} {x : BitVec w} :
    unlessOverflow o x = none ↔ o = true := by
  cases o <;> simp [unlessOverflow]

def checkedAdd (a b : BitVec w) : Option (BitVec w) := unlessOverflow (a.saddOverflow b) (a + b)

def checkedSub (a b : BitVec w) : Option (BitVec w) := unlessOverflow (a.ssubOverflow b) (a - b)

def checkedMul (a b : BitVec w) : Option (BitVec w) := unlessOverflow (a.smulOverflow b) (a * b)

def checkedNeg (a : BitVec w) : Option (BitVec w) := unlessOverflow a.negOverflow (-a)

/-- Truncating division; `none` on a zero divisor and on the minimum divided by `-1`. -/
def checkedDiv (a b : BitVec w) : Option (BitVec w) :=
  unlessOverflow (b == 0 || a.sdivOverflow b) (a.sdiv b)

/-- Truncating remainder; `none` exactly where `checkedDiv` is. -/
def checkedRem (a b : BitVec w) : Option (BitVec w) :=
  unlessOverflow (b == 0 || a.sdivOverflow b) (a.srem b)

/-- Left shift by an amount that must be below the width. -/
def checkedShl (a : BitVec w) (n : ℕ) : Option (BitVec w) := if n < w then some (a <<< n) else none

/-- Arithmetic right shift by an amount that must be below the width. -/
def checkedShr (a : BitVec w) (n : ℕ) : Option (BitVec w) :=
  if n < w then some (a.sshiftRight n) else none

/-- The exact power, when a signed word can hold it. -/
def checkedPow (a : BitVec w) (e : ℕ) : Option (BitVec w) :=
  if Representable w (a.toInt ^ e) then some (BitVec.ofInt w (a.toInt ^ e)) else none

/-! ## Wrapping powers -/

/-- Square-and-multiply with wrapping multiplication: `acc * b ^ e`. -/
def powLoop (acc b : BitVec w) (e : ℕ) : BitVec w :=
  if e = 0 then acc else powLoop (if e % 2 = 1 then acc * b else acc) (b * b) (e / 2)
termination_by e

theorem powLoop_eq (acc b : BitVec w) (e : ℕ) : powLoop acc b e = acc * b ^ e := by
  fun_induction powLoop acc b e with
  | case1 acc b => simp
  | case2 acc b e he ih =>
    have hsq : (b * b) ^ (e / 2) = b ^ (2 * (e / 2)) := by rw [pow_mul, sq]
    simp only [dite_eq_ite] at ih
    rw [ih, hsq]
    by_cases hodd : e % 2 = 1
    · rw [if_pos hodd, mul_assoc, ← pow_succ', show 2 * (e / 2) + 1 = e by omega]
    · rw [if_neg hodd, show 2 * (e / 2) = e by omega]

/-- The wrapping power is the exact power reduced to the width. -/
theorem ofInt_toInt_pow (a : BitVec w) (e : ℕ) : BitVec.ofInt w (a.toInt ^ e) = a ^ e := by
  induction e with
  | zero => simp
  | succ e ih => rw [pow_succ, BitVec.ofInt_mul, ih, BitVec.ofInt_toInt, pow_succ]

/-- Two words made from integers are equal exactly when the integers agree modulo `2 ^ w`. -/
theorem ofInt_eq_ofInt_iff (x y : ℤ) :
    BitVec.ofInt w x = BitVec.ofInt w y ↔ (2 : ℤ) ^ w ∣ y - x := by
  have hcast : ((2 ^ w : ℕ) : ℤ) = 2 ^ w := by norm_cast
  rw [← BitVec.toInt_inj, BitVec.toInt_ofInt, BitVec.toInt_ofInt, ← hcast]
  constructor
  · intro h
    have hx := Int.bmod_emod (x := x) (m := 2 ^ w)
    have hy := Int.bmod_emod (x := y) (m := 2 ^ w)
    rw [h] at hx
    exact Int.ModEq.dvd (hx.symm.trans hy)
  · intro h
    exact Int.bmod_eq_bmod_iff_bmod_sub_eq_zero.mpr
      (Int.bmod_eq_zero_of_dvd (by rw [← dvd_neg, neg_sub]; exact h))

/-! ## Powers modulo `2 ^ 64` -/

/-- Lifting the exponent at two: an odd base and an even exponent. -/
theorem two_pow_dvd_pow_sub_one_iff {a : ℤ} (ha : Odd a) {d : ℕ} (hd : Even d) (n : ℕ) :
    (2 : ℤ) ^ n ∣ a ^ d - 1 ↔ (2 : ℤ) ^ (n + 1) ∣ (a ^ 2 - 1) * d := by
  have h2 : ¬ (2 : ℤ) ∣ a := fun h => (Int.not_even_iff_odd.mpr ha) (even_iff_two_dvd.mpr h)
  have h21 : (2 : ℤ) ∣ a - 1 := by
    obtain ⟨k, rfl⟩ := ha
    exact ⟨k, by ring⟩
  have lte := Int.two_pow_sub_pow (y := 1) h21 h2 hd
  rw [one_pow] at lte
  have hfac : (a ^ 2 - 1) * (d : ℤ) = (a + 1) * (a - 1) * d := by ring
  rw [pow_dvd_iff_le_emultiplicity, pow_dvd_iff_le_emultiplicity, hfac,
    emultiplicity_mul Int.prime_two, emultiplicity_mul Int.prime_two, ← lte, Nat.cast_add,
    Nat.cast_one, ENat.add_le_add_iff_right ENat.one_ne_top]

/-- When truncating an exponent modulo `2 ^ 32` leaves a representable power unchanged modulo
`2 ^ 64`. -/
theorem two_pow_dvd_pow_sub_pow_iff {a : ℤ} {b : ℕ} (hrep : Representable 64 (a ^ (b % 2 ^ 32))) :
    (2 : ℤ) ^ 64 ∣ a ^ b - a ^ (b % 2 ^ 32) ↔
      b < 2 ^ 32 ∨ (a = 0 ∧ b % 2 ^ 32 ≠ 0) ∨
        (Odd a ∧ (2 : ℤ) ^ 65 ∣ (a ^ 2 - 1) * ((b - b % 2 ^ 32 : ℕ) : ℤ)) := by
  by_cases hb : b < 2 ^ 32
  · rw [Nat.mod_eq_of_lt hb, sub_self]
    exact iff_of_true (dvd_zero _) (Or.inl hb)
  have he : b % 2 ^ 32 ≤ b := Nat.mod_le _ _
  have hdvd : 2 ^ 32 ∣ b - b % 2 ^ 32 := Nat.dvd_sub_mod b
  generalize b % 2 ^ 32 = e at *
  rw [or_iff_right hb]
  rcases Int.even_or_odd a with heven | hodd
  · -- an even base: the full power vanishes, so the truncated one has to
    have hvan : (2 : ℤ) ^ 64 ∣ a ^ b :=
      (pow_dvd_pow_of_dvd (even_iff_two_dvd.mp heven) 64).trans (pow_dvd_pow a (by omega))
    have hsmall : (2 : ℤ) ^ 64 ∣ a ^ e ↔ a ^ e = 0 := by
      refine ⟨fun h => ?_, fun h => h ▸ dvd_zero _⟩
      obtain ⟨hlo, hhi⟩ := hrep
      refine Int.eq_zero_of_abs_lt_dvd h (abs_lt.mpr ⟨?_, ?_⟩) <;> norm_num at * <;> omega
    rw [dvd_sub_right hvan, hsmall, pow_eq_zero_iff']
    exact (or_iff_left fun h => Int.not_even_iff_odd.mpr h.1 heven).symm
  · have h2 : ¬ (2 : ℤ) ∣ a ^ e := fun h =>
      Int.not_even_iff_odd.mpr hodd (even_iff_two_dvd.mpr (Int.prime_two.dvd_of_dvd_pow h))
    have hsplit : a ^ b - a ^ e = a ^ e * (a ^ (b - e) - 1) := by
      rw [mul_sub, ← pow_add, show e + (b - e) = b by omega, mul_one]
    have hcancel : (2 : ℤ) ^ 64 ∣ a ^ b - a ^ e ↔ (2 : ℤ) ^ 64 ∣ a ^ (b - e) - 1 := by
      rw [hsplit]
      exact ⟨Int.prime_two.pow_dvd_of_dvd_mul_left 64 h2, fun h => h.mul_left _⟩
    have hd : Even (b - e) := even_iff_two_dvd.mpr (Dvd.dvd.trans ⟨2 ^ 31, by norm_num⟩ hdvd)
    rw [hcancel, two_pow_dvd_pow_sub_one_iff hodd hd]
    refine ⟨fun h => Or.inr ⟨hodd, h⟩, ?_⟩
    rintro (⟨rfl, -⟩ | ⟨-, h⟩)
    · simp at hodd
    · exact h

/-! ## Wrapping operations through the integers

Each operation is the residue of the exact integer operation on the signed or unsigned readings. -/

theorem ofInt_sub (x y : ℤ) : BitVec.ofInt w (x - y) = BitVec.ofInt w x - BitVec.ofInt w y := by
  rw [Int.sub_eq_add_neg, BitVec.ofInt_add, BitVec.ofInt_neg, BitVec.sub_eq_add_neg]

theorem sdiv_eq_ofInt (a b : BitVec w) :
    a.sdiv b = BitVec.ofInt w (a.toInt.tdiv b.toInt) := by
  apply BitVec.eq_of_toInt_eq
  rw [BitVec.toInt_sdiv, BitVec.toInt_ofInt]

theorem srem_eq_ofInt (a b : BitVec w) :
    a.srem b = BitVec.ofInt w (a.toInt.tmod b.toInt) := by
  rw [← BitVec.toInt_srem, BitVec.ofInt_toInt]

theorem shiftLeft_eq_ofInt (a : BitVec w) (n : ℕ) :
    a <<< n = BitVec.ofInt w (a.toInt * 2 ^ n) := by
  apply BitVec.eq_of_toInt_eq
  rw [BitVec.toInt_shiftLeft, BitVec.toInt_ofInt, Nat.shiftLeft_eq, BitVec.toInt_eq_toNat_bmod,
    Int.bmod_mul_bmod]
  push_cast
  rfl

theorem sshiftRight_eq_ofInt (a : BitVec w) (n : ℕ) :
    a.sshiftRight n = BitVec.ofInt w (a.toInt / 2 ^ n) := by
  rw [BitVec.sshiftRight, Int.shiftRight_eq_div_pow]
  push_cast
  rfl

theorem udiv_eq_ofInt (a b : BitVec w) :
    a.udiv b = BitVec.ofInt w (a.toNat / b.toNat) := by
  change a / b = _
  rw [BitVec.udiv_def]
  exact_mod_cast (BitVec.ofInt_natCast w (a.toNat / b.toNat)).symm

theorem umod_eq_ofInt (a b : BitVec w) :
    a.umod b = BitVec.ofInt w (a.toNat % b.toNat) := by
  change a % b = _
  rw [BitVec.umod_def]
  exact_mod_cast (BitVec.ofInt_natCast w (a.toNat % b.toNat)).symm

theorem ushiftRight_eq_ofInt (a : BitVec w) (n : ℕ) :
    a >>> n = BitVec.ofInt w (a.toNat / 2 ^ n) := by
  apply BitVec.eq_of_toNat_eq
  rw [BitVec.toNat_ushiftRight, Nat.shiftRight_eq_div_pow, BitVec.toNat_ofInt]
  have : a.toNat / 2 ^ n < 2 ^ w := (Nat.div_le_self _ _).trans_lt a.isLt
  have hcast : ((a.toNat : ℤ) / 2 ^ n) % ((2 ^ w : ℕ) : ℤ) = ((a.toNat / 2 ^ n : ℕ) : ℤ) := by
    exact_mod_cast congrArg (Nat.cast : ℕ → ℤ) (Nat.mod_eq_of_lt this)
  rw [hcast, Int.toNat_natCast]

theorem toNat_ofInt_eq_emod (z : ℤ) : ((BitVec.ofInt w z).toNat : ℤ) = z % 2 ^ w := by
  rw [BitVec.toNat_ofInt]
  push_cast
  exact Int.toNat_of_nonneg (Int.emod_nonneg _ (by positivity))

end MachineInt

import Kryos.Wasm.IntOps

/-!
# Slots as integers

The signed reading of a slot is the representative, at the slot's type, of the value modulo `2 ^ w`.
Two types with different widths may give one residue different representatives
(`SlotTy.norm_eq_norm_iff`); this is all that can go wrong in the ring operations.

## Main results

* `SlotTy.norm_eq_norm_iff` — when representatives at two types coincide
* `SlotTy.toInt_slot`, `SlotTy.toInt_wrap` — slots and the narrow wrap in integers
* `SlotTy.extend_eq` — a native operand, extended, is a residue of its slot
-/

namespace Kryos

namespace Wasm

open Native MachineInt

variable {t : SlotTy}

namespace SlotTy

/-! ## Representatives -/

/-- The contents of the slot of `t` that is congruent to `z` modulo `2 ^ t.width`, read as a signed
integer. -/
def norm (t : SlotTy) (z : ℤ) : ℤ :=
  if t.unsigned && t.isNarrow then z % 2 ^ t.width else z.bmod (2 ^ t.width)

/-- `z` is the signed reading of some slot of type `t`. -/
def Fits (t : SlotTy) (z : ℤ) : Prop := t.minSlot ≤ z ∧ z ≤ t.maxSlot

instance (t : SlotTy) (z : ℤ) : Decidable (t.Fits z) := inferInstanceAs (Decidable (_ ∧ _))

theorem width_le (t : SlotTy) : t.width ≤ 64 := by cases t <;> decide

theorem two_pow_width_dvd (t : SlotTy) {w : ℕ} (h : t.width ≤ w) :
    (2 ^ t.width : ℤ) ∣ 2 ^ w := pow_dvd_pow 2 h

theorem norm_emod (t : SlotTy) (z : ℤ) : t.norm z % 2 ^ t.width = z % 2 ^ t.width := by
  unfold norm
  split
  · exact Int.emod_emod_of_dvd z (dvd_refl _)
  · exact_mod_cast Int.bmod_emod (x := z) (m := 2 ^ t.width)

/-- Congruent integers have one representative. -/
theorem norm_eq_of_emod_eq {y z : ℤ} (h : y % 2 ^ t.width = z % 2 ^ t.width) :
    t.norm y = t.norm z := by
  unfold norm
  split
  · exact h
  · rw [← Int.emod_bmod y, ← Int.emod_bmod z]
    push_cast
    rw [h]

theorem fits_norm (t : SlotTy) (z : ℤ) : t.Fits (t.norm z) := by
  cases t <;> simp only [Fits, norm, minSlot, maxSlot, unsigned, isNarrow, width, Bool.and_true,
    Bool.and_false, Bool.false_eq_true, if_true, if_false, Int.bmod_def] <;> 
    norm_num <;> omega

theorem norm_of_fits {z : ℤ} (h : t.Fits z) : t.norm z = z := by
  revert h
  cases t <;> simp only [Fits, norm, minSlot, maxSlot, unsigned, isNarrow, width, Bool.and_true,
    Bool.and_false, Bool.false_eq_true, if_true, if_false, Int.bmod_def] <;> 
    norm_num <;> omega

/-- The representative at a narrower type `p` of one integer is the representative at `t` of
another exactly when the two are congruent at the narrower width and the latter fits `p`. -/
theorem norm_eq_norm_iff {p : SlotTy} (hpt : p.width ≤ t.width) (S N : ℤ) :
    p.norm S = t.norm N ↔ S % 2 ^ p.width = N % 2 ^ p.width ∧ p.Fits (t.norm N) := by
  have hN : t.norm N % 2 ^ p.width = N % 2 ^ p.width := by
    rw [← Int.emod_emod_of_dvd (t.norm N) (two_pow_width_dvd p hpt), norm_emod,
      Int.emod_emod_of_dvd N (two_pow_width_dvd p hpt)]
  constructor
  · intro h
    refine ⟨?_, h ▸ p.fits_norm S⟩
    rw [← hN, ← h, norm_emod]
  · rintro ⟨hmod, hfits⟩
    rw [← norm_of_fits hfits]
    exact norm_eq_of_emod_eq (hmod.trans hN.symm)

/-! ## Slots as integers -/

theorem setWidth_eq_ofInt (x : I64) {w : ℕ} (hw : w ≤ 64) :
    x.setWidth w = BitVec.ofInt w x.toInt := by
  apply BitVec.eq_of_toNat_eq
  have hd : ((2 ^ w : ℕ) : ℤ) ∣ (2 ^ 64 : ℕ) := by
    exact_mod_cast pow_dvd_pow 2 hw
  have hx : x.toInt % (2 ^ w : ℕ) = x.toNat % (2 ^ w : ℕ) := by
    rw [← Int.emod_emod_of_dvd x.toInt hd, BitVec.toInt_eq_toNat_bmod, Int.bmod_emod,
      Int.emod_emod_of_dvd _ hd]
  rw [BitVec.toNat_setWidth, BitVec.toNat_ofInt, hx]
  omega

/-- The extension to 64 bits of the native value with residue `N` is the representative of `N`. -/
theorem toInt_extend {w : ℕ} (hw : w = t.width) (N : ℤ) :
    ((ClInt.mk w (BitVec.ofInt w N)).extend t.unsigned 64).toInt = t.norm N := by
  subst hw
  unfold ClInt.extend norm
  by_cases hu : t.unsigned
  · rw [if_pos hu, BitVec.toInt_setWidth, BitVec.toNat_ofInt]
    push_cast
    rw [Int.toNat_of_nonneg (Int.emod_nonneg _ (by positivity))]
    cases t <;> simp only [unsigned, isNarrow, width, Bool.false_eq_true, Bool.and_true,
      Bool.and_false, if_true, if_false, Int.bmod_def] at hu ⊢ <;> norm_num <;> omega
  · rw [if_neg hu, BitVec.toInt_signExtend, BitVec.toInt_ofInt, min_eq_right t.width_le,
      Int.bmod_bmod]
    simp [hu]

theorem toInt_slot (v : BitVec t.width) : (t.slot v).toInt = t.norm v.toInt := by
  have h := t.toInt_extend rfl v.toInt
  rwa [BitVec.ofInt_toInt] at h

/-- A slot holds a value that fits its type. -/
theorem fits_slot (v : BitVec t.width) : t.Fits (t.slot v).toInt :=
  toInt_slot v ▸ t.fits_norm _

theorem toInt_wrap (t : SlotTy) (x : I64) : (t.wrap x).toInt = t.norm x.toInt := by
  unfold wrap
  rw [setWidth_eq_ofInt x t.width_le]
  exact t.toInt_extend rfl x.toInt

/-- Extending a native value to a wider width truncates its slot. -/
theorem extend_eq (v : BitVec t.width) {w : ℕ} (hw : w ≤ 64) :
    (ClInt.mk t.width v).extend t.unsigned w = BitVec.ofInt w (t.slot v).toInt := by
  unfold slot ClInt.extend
  cases t.unsigned
  · simp only [Bool.false_eq_true, if_false]
    rw [BitVec.toInt_signExtend, min_eq_right t.width_le, BitVec.toInt_bmod_cancel]
    rfl
  · simp only [if_true]
    rw [← setWidth_eq_ofInt _ hw, BitVec.setWidth_setWidth_of_le _ hw]

end SlotTy

/-- `w` is the width of a machine word and `x` the reading of a slot no wider: the unsigned types
reach up to `2 ^ w`, the signed ones stop at half of it. -/
structure WordReading (w : ℕ) (isUnsigned : Bool) (x : ℤ) : Prop where
  width : w = 8 ∨ w = 16 ∨ w = 32 ∨ w = 64
  lower : -2 ^ (w - 1) ≤ x
  upper : x < 2 ^ w
  signed : isUnsigned = false → x < 2 ^ (w - 1)

theorem SlotTy.max_width_cases (l r : SlotTy) : max l.width r.width = 8 ∨
    max l.width r.width = 16 ∨ max l.width r.width = 32 ∨ max l.width r.width = 64 := by
  cases l <;> cases r <;> decide

theorem SlotTy.le_minSlot (t : SlotTy) : -2 ^ (t.width - 1) ≤ t.minSlot := by cases t <;> decide

theorem SlotTy.maxSlot_lt (t : SlotTy) : t.maxSlot < 2 ^ t.width := by cases t <;> decide

theorem SlotTy.maxSlot_lt_of_signed (h : t.unsigned = false) : t.maxSlot < 2 ^ (t.width - 1) := by
  cases t <;> first | decide | cases h

theorem SlotTy.Fits.wordReading {x : ℤ} (h : t.Fits x) {w : ℕ}
    (hw : w = 8 ∨ w = 16 ∨ w = 32 ∨ w = 64) (hle : t.width ≤ w) {u : Bool}
    (hu : u = false → t.unsigned = false) : WordReading w u x := by
  have hpow : (2 ^ t.width : ℤ) ≤ 2 ^ w := pow_le_pow_right₀ (by decide) hle
  have hpow' : (2 ^ (t.width - 1) : ℤ) ≤ 2 ^ (w - 1) := pow_le_pow_right₀ (by decide) (by omega)
  have h₁ := t.le_minSlot
  have h₂ := t.maxSlot_lt
  refine ⟨hw, ?_, ?_, fun h₀ => ?_⟩
  · exact le_trans (by omega) h.1
  · exact h.2.trans_lt (by omega)
  · have h₃ := maxSlot_lt_of_signed (hu h₀)
    exact h.2.trans_lt (by omega)

namespace WordReading

variable {w : ℕ} {u : Bool} {x y : ℤ}

theorem toInt_ofInt (h : WordReading w false x) : (BitVec.ofInt w x).toInt = x := by
  have hs := h.signed rfl
  have hl := h.lower
  rw [BitVec.toInt_ofInt, Int.bmod_def]
  obtain rfl | rfl | rfl | rfl := h.width <;> norm_num at * <;> omega

theorem ofInt_eq_zero (h : WordReading w u x) : BitVec.ofInt w x = 0 ↔ x = 0 := by
  have hl := h.lower
  have hu := h.upper
  have h0 : (0 : BitVec w).toNat = 0 := BitVec.toNat_zero
  rw [← BitVec.toNat_inj, ← Int.natCast_inj, toNat_ofInt_eq_emod, h0]
  obtain rfl | rfl | rfl | rfl := h.width <;> norm_num at * <;> omega

theorem shiftAmount (h : WordReading w u y) : (BitVec.ofInt w y).toNat % w = (y % w).toNat := by
  rw [← Int.natCast_inj, Int.natCast_mod, toNat_ofInt_eq_emod]
  obtain rfl | rfl | rfl | rfl := h.width <;> norm_num <;> omega

theorem setWidth_eq_zero (h : WordReading w u y) : (BitVec.ofInt w y).setWidth 64 = 0 ↔ y = 0 := by
  have hpow : 2 ^ w ≤ 2 ^ 64 := Nat.pow_le_pow_right (by decide) (by have := h.width; omega)
  have hlt := (BitVec.ofInt w y).isLt
  have h0 : ∀ n, (0 : BitVec n).toNat = 0 := fun n => BitVec.toNat_zero
  rw [← h.ofInt_eq_zero, ← BitVec.toNat_inj, ← BitVec.toNat_inj, BitVec.toNat_setWidth,
    Nat.mod_eq_of_lt (hlt.trans_le hpow), h0, h0]

theorem toInt_signExtend (h : WordReading w false x) :
    ((BitVec.ofInt w x).signExtend 64).toInt = x := by
  have hle : w ≤ 64 := by have := h.width; omega
  rw [BitVec.toInt_signExtend, min_eq_right hle, BitVec.toInt_bmod_cancel, h.toInt_ofInt]

theorem signedMin_eq (h : WordReading w u x) : signedMin (min w 64) = -2 ^ (w - 1) := by
  obtain rfl | rfl | rfl | rfl := h.width <;> rfl

end WordReading

end Wasm

end Kryos

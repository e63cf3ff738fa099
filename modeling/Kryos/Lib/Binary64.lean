import Mathlib

/-!
# Integers in binary64

Lean's `Float.Model` is the IEEE 754 binary64 format: bit patterns, with the operations defined by
unpacking, computing exactly and rounding to nearest even. Integers of magnitude at most `2 ^ 53`
are represented exactly, and the conversions between them, decimal notation and the format are
inverse to each other.

## Main results

* `Binary64.unpack_ofInt` — the sign, the significand and the exponent of such an integer
* `Binary64.toInt64_ofInt` — truncating it gives it back
* `Binary64.ofDecimal_natAbs` — so does reading its decimal digits
-/

namespace Binary64

open Float.Model Float.Model.UnpackedFloat

/-- The value of a decimal literal, rounded once: `m * 10 ^ e` or its negation. -/
def ofDecimal (neg : Bool) (m : ℕ) (e : ℤ) : Float.Model :=
  if neg then -ofScientific m e else ofScientific m e

/-- The fractional part of the number is zero. -/
def isIntegral (x : Float.Model) : Bool :=
  match x.unpack with
  | .notANumber => false
  | .infinity _ => false
  | .zero _ => true
  | .finite _ m e _ => 0 ≤ e || m % 2 ^ (-e).toNat == 0

/-! ## Packing -/

theorem unpackSign_packComponents {spec : Format} {sign exponent mantissa} :
    unpackSign (packComponents spec sign exponent mantissa) = sign.toBitVec := by
  ext i hi
  obtain rfl : i = 0 := by omega
  simp [unpackSign, packComponents, BitVec.getLsbD_append, BitVec.getElem_append]

theorem ofBitVec_toBitVec (s : Sign) : Sign.ofBitVec s.toBitVec = s := by
  cases s <;> rfl

/-- A significand of full length and an exponent in range survive packing. -/
theorem unpack_pack_finite {s : Sign} {m : ℕ} {e : ℤ} (hpos : 0 < m) (hm : m.log2 = 52)
    (hlo : -1074 ≤ e) (hhi : e ≤ 971) :
    (Float.Model.pack (.finite s m e hpos)).unpack = .finite s m e hpos := by
  obtain ⟨b, hb⟩ : ∃ b : ℕ, e = b - 1075 := ⟨(e + 1075).toNat, by omega⟩
  have hlt : m < 2 ^ 53 := by
    have := @Nat.lt_log2_self m
    rwa [hm] at this
  have hge : 2 ^ 52 ≤ m := by
    have := Nat.log2_self_le hpos.ne'
    rwa [hm] at this
  have hpack : UnpackedFloat.pack Format.binary64 (.finite s m e hpos) =
      packComponents Format.binary64 s (BitVec.ofNat 11 b) (BitVec.ofNat 52 m) := by
    have hbias : (e + Format.binary64.exponentBias + Format.binary64.mantissaBitsWithoutImplicit).toNat
        = b := by
      simp only [Format.exponentBias]
      omega
    rw [UnpackedFloat.pack, hbias, if_neg (show ¬ 2 ^ 11 ≤ b + 1 by omega),
      if_pos (by rw [hm]; rfl)]
  have hexp : (BitVec.ofNat 11 b).toNat = b := by
    rw [BitVec.toNat_ofNat, Nat.mod_eq_of_lt (by omega)]
  have hmax : BitVec.ofNat 11 b ≠ -1#11 := by
    intro h
    have := congrArg BitVec.toNat h
    rw [hexp] at this
    simp at this
    omega
  have hzero : BitVec.ofNat 11 b ≠ 0#11 := by
    intro h
    have := congrArg BitVec.toNat h
    rw [hexp] at this
    simp at this
    omega
  have hmant : (1#1 ++ BitVec.ofNat 52 m).toNat = m := by
    have hlow : (BitVec.ofNat 52 m).toNat = m % 2 ^ 52 := BitVec.toNat_ofNat ..
    rw [BitVec.toNat_append, hlow, ← Nat.shiftLeft_add_eq_or_of_lt
      (Nat.mod_lt m (Nat.two_pow_pos 52)), Nat.shiftLeft_eq]
    simp only [BitVec.toNat_ofNat]
    omega
  rw [Float.Model.unpack, Float.Model.pack]
  show UnpackedFloat.unpack Format.binary64 (UnpackedFloat.pack Format.binary64 _) = _
  rw [hpack, UnpackedFloat.unpack]
  simp only [unpackExponent_packComponents, unpackMantissa_packComponents,
    unpackSign_packComponents, ofBitVec_toBitVec]
  rw [if_neg hmax, if_neg hzero]
  congr 1
  rw [hexp, hb]
  rfl

/-! ## Rounding -/

theorem shiftRight_eq_repeat (em : ExtendedMantissa) (j : ℕ) :
    em >>> j = j.repeat ExtendedMantissa.shiftRightOne em := rfl

/-- Shifting out zero bits is exact. -/
theorem shiftRight_mul_two_pow (a j : ℕ) :
    (⟨a * 2 ^ j, false, false⟩ : ExtendedMantissa) >>> j = ⟨a, false, false⟩ := by
  induction j generalizing a with
  | zero => simp [shiftRight_eq_repeat, Nat.repeat]
  | succ j ih =>
    have h2 : a * 2 ^ (j + 1) = 2 * a * 2 ^ j := by rw [Nat.pow_succ]; grind
    rw [shiftRight_eq_repeat, Nat.repeat, ← shiftRight_eq_repeat, h2, ih]
    simp [ExtendedMantissa.shiftRightOne]

theorem log2_mul_two_pow {m : ℕ} (hpos : 0 < m) (j : ℕ) : (m * 2 ^ j).log2 = m.log2 + j := by
  rw [Nat.log2_eq_iff (Nat.mul_pos hpos (Nat.two_pow_pos j)).ne', Nat.pow_add, Nat.add_right_comm,
    Nat.pow_add]
  exact ⟨Nat.mul_le_mul_right _ (Nat.log2_self_le hpos.ne'),
    Nat.mul_lt_mul_of_pos_right Nat.lt_log2_self (Nat.two_pow_pos j)⟩

theorem targetExponent_eq {m : ℕ} {e : ℤ} (he : -1074 ≤ m.log2 + e - 52) :
    Format.binary64.targetExponent (totalExponent m e) = m.log2 + e - 52 := by
  show max ((m.log2 : ℤ) + 1 + e - (1 + 52 : ℕ)) (3 - 2 ^ (11 - 1) - (1 + 52 : ℕ)) = _
  omega

theorem shiftToTargetExponent_exact {m j : ℕ} {e : ℤ} (hpos : 0 < m) (hm : m.log2 = 52)
    (he : -1074 ≤ e) :
    shiftToTargetExponent Format.binary64 (m * 2 ^ j) (e - j) .exact = (⟨m, false, false⟩, e) := by
  have hlog : (m * 2 ^ j).log2 = 52 + j := by rw [log2_mul_two_pow hpos, hm]
  have htarget : Format.binary64.targetExponent (totalExponent (m * 2 ^ j) (e - j)) = e := by
    rw [targetExponent_eq (by rw [hlog]; omega), hlog]
    omega
  have hshift : (e - (e - j)).toNat = j := by omega
  rw [shiftToTargetExponent, htarget, shiftToExponent, hshift]
  exact Prod.ext (shiftRight_mul_two_pow m j) (by show e - (j : ℤ) + j = e; omega)

/-- Rounding is exact where every bit below the target exponent is zero. -/
theorem roundWithAccuracy_exact (s : Sign) {m j : ℕ} {e : ℤ} (hpos : 0 < m) (hm : m.log2 = 52)
    (he : -1074 ≤ e) :
    roundWithAccuracy Format.binary64 s (m * 2 ^ j) (e - j) .exact = .finite s m e hpos := by
  have hagain := @shiftToTargetExponent_exact m 0 e hpos hm he
  rw [Nat.pow_zero, Nat.mul_one, Int.ofNat_zero, Int.sub_zero] at hagain
  rw [roundWithAccuracy, shiftToTargetExponent_exact hpos hm he]
  show (let (em, e') := shiftToTargetExponent Format.binary64 m e .exact;
    if h : em.mantissa = 0 then UnpackedFloat.zero s
    else .finite s em.mantissa e' (Nat.pos_of_ne_zero h)) = _
  rw [hagain]
  exact dif_neg hpos.ne'

/-! ## Integers -/

/-- The full-length significand of an integer: `n * 2 ^ 53 = m * 2 ^ (k + 1)`, so that
`n = m * 2 ^ (k - 52)`. -/
theorem exists_significand {n : ℕ} (hpos : 0 < n) (hle : n ≤ 2 ^ 53) :
    ∃ m, 0 < m ∧ m.log2 = 52 ∧ n.log2 ≤ 53 ∧ n * 2 ^ 53 = m * 2 ^ (n.log2 + 1) := by
  obtain hlt | rfl := Nat.lt_or_eq_of_le hle
  · have hk : n.log2 < 53 := (Nat.log2_lt hpos.ne').mpr hlt
    refine ⟨n * 2 ^ (52 - n.log2), Nat.mul_pos hpos (Nat.two_pow_pos _), ?_, by omega, ?_⟩
    · rw [log2_mul_two_pow hpos]
      omega
    · rw [Nat.mul_assoc, ← Nat.pow_add]
      congr 2
      omega
  · refine ⟨2 ^ 52, by decide, Nat.log2_two_pow, by rw [Nat.log2_two_pow], ?_⟩
    simp only [Nat.log2_two_pow, ← Nat.pow_add]

section Integers

variable {n m : ℕ} (hpos : 0 < m) (hm : m.log2 = 52) (hk : n.log2 ≤ 53)
  (hnm : n * 2 ^ 53 = m * 2 ^ (n.log2 + 1))

include hnm

theorem significand_eq (hlt : n.log2 ≤ 52) : m = n * 2 ^ (52 - n.log2) := by
  have hsplit : 2 ^ 53 = 2 ^ (52 - n.log2) * 2 ^ (n.log2 + 1) := by
    rw [← Nat.pow_add]
    congr 1
    omega
  refine Nat.eq_of_mul_eq_mul_right (Nat.two_pow_pos (n.log2 + 1)) ?_
  rw [← hnm, Nat.mul_assoc, ← hsplit]

theorem eq_mul_two (hmax : n.log2 = 53) : n = m * 2 := by
  rw [hmax] at hnm
  omega

include hm hk

theorem round_natCast (s : Sign) :
    round Format.binary64 s n 0 = .finite s m (n.log2 - 52) hpos := by
  have htarget : Format.binary64.targetExponent (totalExponent n 0) = n.log2 - 52 := by
    rw [targetExponent_eq (by omega)]
    omega
  rw [UnpackedFloat.round, htarget, decreaseExponent]
  obtain hlt | hmax : n.log2 ≤ 52 ∨ n.log2 = 53 := by omega
  · have hshift : (0 - ((n.log2 : ℤ) - 52)).toNat = 52 - n.log2 := by omega
    have hmant : n <<< (52 - n.log2) = m * 2 ^ 0 := by
      rw [Nat.shiftLeft_eq, Nat.pow_zero, Nat.mul_one, ← significand_eq hnm hlt]
    have hexp : (0 : ℤ) - (52 - n.log2 : ℕ) = (n.log2 - 52 : ℤ) - (0 : ℕ) := by omega
    rw [hshift, hmant, hexp]
    exact roundWithAccuracy_exact s hpos hm (by omega)
  · have hshift : (0 - ((n.log2 : ℤ) - 52)).toNat = 0 := by omega
    have hmant : n <<< 0 = m * 2 ^ 1 := eq_mul_two hnm hmax
    have hexp : (0 : ℤ) - (0 : ℕ) = (n.log2 - 52 : ℤ) - (1 : ℕ) := by omega
    rw [hshift, hmant, hexp]
    exact roundWithAccuracy_exact s hpos hm (by omega)

theorem ofScientific_natCast :
    UnpackedFloat.ofScientific Format.binary64 n 0 = .finite .positive m (n.log2 - 52) hpos := by
  have hn : n ≠ 0 := by
    rintro rfl
    have := Nat.mul_pos hpos (Nat.two_pow_pos ((0 : ℕ).log2 + 1))
    omega
  have hbits : Format.binary64.mantissaBits = 53 := rfl
  have hmant : n <<< 53 * 10 ^ (0 : ℤ).toNat = m * 2 ^ (n.log2 + 1) := by
    rw [Nat.shiftLeft_eq, Int.toNat_zero, Nat.pow_zero, Nat.mul_one, hnm]
  have hexp : -((53 : ℕ) : ℤ) + 0 = (n.log2 - 52 : ℤ) - (n.log2 + 1 : ℕ) := by omega
  have hsmall : ¬ (0 : ℤ) < -((2 ^ Format.binary64.exponentBits : ℤ) + n.log2) := by
    show ¬ (0 : ℤ) < -(2 ^ 11 + (n.log2 : ℤ))
    omega
  rw [UnpackedFloat.ofScientific, dif_neg hn, if_neg (by decide), if_neg hsmall,
    if_pos (le_refl _), UnpackedFloat.mul]
  simp only [hbits]
  rw [hmant, hexp]
  exact roundWithAccuracy_exact .positive hpos hm (by omega)

omit hm in
theorem roundToInt_natCast (s : Sign) : roundToInt s m (n.log2 - 52) = s.apply n := by
  simp only [roundToInt, decreaseExponent, shiftToExponent, ExtendedMantissa.ofMantissaAndAccuracy]
  obtain hlt | hmax : n.log2 ≤ 52 ∨ n.log2 = 53 := by omega
  · have hzero : ((n.log2 : ℤ) - 52 - 0).toNat = 0 := by omega
    have hshift : (0 - ((n.log2 : ℤ) - 52 - (0 : ℕ))).toNat = 52 - n.log2 := by omega
    rw [hzero, Nat.shiftLeft_zero, hshift, significand_eq hnm hlt, shiftRight_mul_two_pow]
  · have hone : ((n.log2 : ℤ) - 52 - 0).toNat = 1 := by omega
    have hshift : (0 - ((n.log2 : ℤ) - 52 - (1 : ℕ))).toNat = 0 := by omega
    have hmant : m <<< 1 = n * 2 ^ 0 := by
      rw [Nat.shiftLeft_eq, Nat.pow_zero, Nat.mul_one]
      exact (eq_mul_two hnm hmax).symm
    rw [hone, hshift, hmant, shiftRight_mul_two_pow]

omit hm in
theorem isIntegral_natCast : 0 ≤ (n.log2 - 52 : ℤ) ∨ m % 2 ^ (-(n.log2 - 52 : ℤ)).toNat = 0 := by
  obtain hlt | hmax : n.log2 ≤ 52 ∨ n.log2 = 53 := by omega
  · have hshift : (-((n.log2 : ℤ) - 52)).toNat = 52 - n.log2 := by omega
    refine Or.inr ?_
    rw [hshift, significand_eq hnm hlt, Nat.mul_mod_left]
  · exact Or.inl (by omega)

end Integers

/-- An integer, packed: its sign, its significand and its exponent. -/
structure Packed (z : ℤ) (s : Sign) (m : ℕ) : Prop where
  pos : 0 < m
  log2_eq : m.log2 = 52
  log2_le : z.natAbs.log2 ≤ 53
  scaled : z.natAbs * 2 ^ 53 = m * 2 ^ (z.natAbs.log2 + 1)
  apply_eq : s.apply z.natAbs = z
  ofInt_eq : Float.Model.ofInt z = Float.Model.pack (.finite s m (z.natAbs.log2 - 52) pos)

theorem exists_packed {z : ℤ} (hz : z ≠ 0) (hle : z.natAbs ≤ 2 ^ 53) : ∃ s m, Packed z s m := by
  obtain ⟨m, hpos, hm, hk, hnm⟩ := exists_significand (Int.natAbs_pos.mpr hz) hle
  obtain hneg | hgt := lt_or_gt_of_ne hz
  · refine ⟨.negative, m, hpos, hm, hk, hnm, ?_, ?_⟩
    · show -(z.natAbs : ℤ) = z
      omega
    · have hcmp : compare z 0 = .lt := compare_lt_iff_lt.mpr hneg
      have habs : (-z).toNat = z.natAbs := by omega
      rw [Float.Model.ofInt, UnpackedFloat.ofInt, UnpackedFloat.normalize, hcmp]
      show Float.Model.pack (round Format.binary64 .negative (-z).toNat 0) = _
      rw [habs, round_natCast hpos hm hk hnm]
  · refine ⟨.positive, m, hpos, hm, hk, hnm, ?_, ?_⟩
    · show (z.natAbs : ℤ) = z
      omega
    · have hcmp : compare z 0 = .gt := compare_gt_iff_gt.mpr hgt
      have habs : z.toNat = z.natAbs := by omega
      rw [Float.Model.ofInt, UnpackedFloat.ofInt, UnpackedFloat.normalize, hcmp]
      show Float.Model.pack (round Format.binary64 .positive z.toNat 0) = _
      rw [habs, round_natCast hpos hm hk hnm]

theorem Packed.unpack_ofInt {z : ℤ} {s : Sign} {m : ℕ} (h : Packed z s m) :
    (Float.Model.ofInt z).unpack = .finite s m (z.natAbs.log2 - 52) h.pos := by
  have hk := h.log2_le
  rw [h.ofInt_eq]
  exact unpack_pack_finite h.pos h.log2_eq (by omega) (by omega)

/-! ## Conversions -/

variable {z : ℤ}

section

variable (hle : z.natAbs ≤ 2 ^ 53)

include hle

theorem isFinite_ofInt : (Float.Model.ofInt z).isFinite = true := by
  by_cases hz : z = 0
  · subst hz
    rfl
  · obtain ⟨s, m, h⟩ := exists_packed hz hle
    rw [Float.Model.isFinite, h.unpack_ofInt]
    rfl

theorem isIntegral_ofInt : isIntegral (Float.Model.ofInt z) = true := by
  by_cases hz : z = 0
  · subst hz
    rfl
  · obtain ⟨s, m, h⟩ := exists_packed hz hle
    rw [isIntegral, h.unpack_ofInt]
    have := isIntegral_natCast h.log2_le h.scaled
    simpa using this

/-- Truncating an integer gives it back. -/
theorem toInt64_ofInt : (Float.Model.ofInt z).toInt64.toInt = z := by
  by_cases hz : z = 0
  · subst hz
    rfl
  · obtain ⟨s, m, h⟩ := exists_packed hz hle
    have hround : (UnpackedFloat.finite s m (z.natAbs.log2 - 52) h.pos).toInt
        Int64.minValue.toInt Int64.maxValue.toInt = z := by
      rw [UnpackedFloat.toInt, roundToInt_natCast h.log2_le h.scaled, h.apply_eq]
    rw [Float.Model.toInt64, h.unpack_ofInt, UnpackedFloat.toInt64, hround, Int64.ofIntClamp,
      dif_pos, dif_pos, Int64.toInt_ofIntLE]
    · show z ≤ 2 ^ 63 - 1
      omega
    · show -2 ^ 63 ≤ z
      omega

/-- Reading the decimal digits of an integer gives the integer. -/
theorem ofDecimal_natAbs : ofDecimal (decide (z < 0)) z.natAbs 0 = Float.Model.ofInt z := by
  by_cases hz : z = 0
  · subst hz
    decide
  · obtain ⟨s, m, h⟩ := exists_packed hz hle
    have hk := h.log2_le
    have hdec : Float.Model.ofScientific z.natAbs 0 =
        Float.Model.pack (.finite .positive m (z.natAbs.log2 - 52) h.pos) := by
      rw [Float.Model.ofScientific, ofScientific_natCast h.pos h.log2_eq h.log2_le h.scaled]
    rw [ofDecimal, hdec, h.ofInt_eq]
    cases s with
    | negative =>
      have happly : -(z.natAbs : ℤ) = z := h.apply_eq
      rw [if_pos (decide_eq_true (by omega))]
      show Float.Model.pack (Float.Model.unpack _).neg = _
      rw [unpack_pack_finite h.pos h.log2_eq (by omega) (by omega)]
      rfl
    | positive =>
      have happly : (z.natAbs : ℤ) = z := h.apply_eq
      rw [if_neg (by simpa using happly ▸ Int.natCast_nonneg z.natAbs)]

/-- Integers of this size are between the bounds of a 64-bit word, as the format has them. -/
theorem ofInt_between :
    Float.Model.ofInt (-2 ^ 63) ≤ Float.Model.ofInt z ∧
      Float.Model.ofInt z ≤ Float.Model.ofInt (2 ^ 63 - 1) := by
  have hmin : (Float.Model.ofInt (-2 ^ 63)).unpack = .finite .negative (2 ^ 52) 11 (by decide) := by
    rfl
  have hmax : (Float.Model.ofInt (2 ^ 63 - 1)).unpack = .finite .positive (2 ^ 52) 11 (by decide) := by
    rfl
  show (UnpackedFloat.le _ _ : Bool) = true ∧ (UnpackedFloat.le _ _ : Bool) = true
  rw [hmin, hmax]
  by_cases hz : z = 0
  · subst hz
    decide
  · obtain ⟨s, m, h⟩ := exists_packed hz hle
    have hk := h.log2_le
    have hlt : compare ((z.natAbs.log2 : ℤ) - 52) 11 = .lt := compare_lt_iff_lt.mpr (by omega)
    have hgt : compare 11 ((z.natAbs.log2 : ℤ) - 52) = .gt := compare_gt_iff_gt.mpr (by omega)
    rw [h.unpack_ofInt]
    cases s with
    | negative => simp [UnpackedFloat.le, UnpackedFloat.compare, hgt, Ordering.then]
    | positive => simp [UnpackedFloat.le, UnpackedFloat.compare, hlt, Ordering.then]

end

end Binary64

import Kryos.Lib.ExactWord
import Kryos.Lib.VariantLoop
import Mathlib.Algebra.Ring.Parity
import Mathlib.Data.Int.GCD
import Mathlib.Data.Nat.Prime.Basic
import Mathlib.Data.Nat.Sqrt
import Mathlib.Tactic.Ring

/-!
# Integer mathematics of the standard library

`std.mathx` and `std.math` compute in wrapping 64-bit words whose division traps on zero. The
absolute value of the smallest word is the word itself, and Euclid's loop then runs on remainders of
both signs.

## Main results

* `gcdLoop_eq` — Euclid's loop on signed operands: the divisor, and the sign it comes with
* `isqrt_eq`, `isPrime_eq` — the square root and the test for primes are exact on every word
* `integerMath_exact_iff` — all of the functions are exact unless the sign is lost
-/

namespace Kryos.Stdlib

open ExactWord VariantLoop

/-! ## The functions -/

/-- The loop of both `gcd` functions. -/
def gcdStep : Int64 × Int64 → Option ((Int64 × Int64) ⊕ Int64)
  | (x, y) => if y ≠ 0 then (checkedRem x y).map fun r => .inl (y, r) else some (.inr x)

def gcdLoop (x y : Int64) : Option Int64 := iterate gcdStep (y.toInt.natAbs + 1) (x, y)

namespace Mathx

def gcd (a b : Int64) : Option Int64 :=
  let x := if a < 0 then -a else a
  let y := if b < 0 then -b else b
  gcdLoop x y

def lcm (a b : Int64) : Option Int64 :=
  if a = 0 ∨ b = 0 then some 0
  else do
    let g ← gcd a b
    let absa := if a < 0 then -a else a
    let absb := if b < 0 then -b else b
    let q ← checkedDiv absa g
    return q * absb

def isqrtStep (n : Int64) : Int64 × Int64 → Option ((Int64 × Int64) ⊕ Int64)
  | (lo, hi) =>
    if lo < hi then
      let mid := (lo + hi + 1) / 2
      (checkedDiv n mid).map fun q =>
        if mid ≤ q then .inl (mid, hi) else .inl (lo, mid - 1)
    else some (.inr lo)

def isqrt (n : Int64) : Option Int64 :=
  if n < 0 then some 0
  else if n < 2 then some n
  else iterate (isqrtStep n) (n.toInt.natAbs + 1) (1, n)

def isPrimeStep (n limit : Int64) (i : Int64) : Option (Int64 ⊕ Bool) :=
  if i ≤ limit then
    (checkedRem n i).map fun r => if r = 0 then .inr false else .inl (i + 2)
  else some (.inr true)

def isPrime (n : Int64) : Option Bool :=
  if n < 2 then some false
  else if n < 4 then some true
  else if n % 2 = 0 then some false
  else do
    let limit ← isqrt n
    iterate (isPrimeStep n limit) (limit.toInt.natAbs + 1) 3

end Mathx

namespace Math

def gcd (a b : Int64) : Option Int64 :=
  let x := if a < 0 then -a else a
  let y := if b < 0 then -b else b
  gcdLoop x y

def lcm (a b : Int64) : Option Int64 :=
  if a = 0 ∨ b = 0 then some 0
  else do
    let g ← gcd a b
    let absa := if a < 0 then 0 - a else a
    let absb := if b < 0 then 0 - b else b
    let q ← checkedDiv absa g
    return q * absb

end Math

/-! ## Euclid's loop on signed operands -/

/-- The divisions that Euclid's algorithm makes. -/
def euclidSteps (m n : ℕ) : ℕ :=
  if h : n = 0 then 0 else euclidSteps n (m % n) + 1
termination_by n
decreasing_by exact Nat.mod_lt m (Nat.pos_of_ne_zero h)

theorem euclidSteps_zero (m : ℕ) : euclidSteps m 0 = 0 := by
  rw [euclidSteps, dif_pos rfl]

theorem euclidSteps_of_ne {m n : ℕ} (h : n ≠ 0) : euclidSteps m n = euclidSteps n (m % n) + 1 := by
  rw [euclidSteps, dif_neg h]

/-- A pair of signs of which at most one is negative. -/
def Signs (σ τ : ℤ) : Prop := σ = 1 ∧ τ = 1 ∨ σ = 1 ∧ τ = -1 ∨ σ = -1 ∧ τ = 1

theorem Signs.swap {σ τ : ℤ} (h : Signs σ τ) : Signs τ σ := by
  rcases h with ⟨rfl, rfl⟩ | ⟨rfl, rfl⟩ | ⟨rfl, rfl⟩ <;> simp [Signs]

/-- The remainders alternate between the signs of the operands. -/
theorem gcdLoop_rounds {σ τ : ℤ} {m k : ℕ} {x y : Int64} {rounds : ℕ} (hsigns : Signs σ τ)
    (hx : x.toInt = σ * m) (hy : y.toInt = τ * k) (hrounds : k < rounds) :
    ∃ r, iterate gcdStep rounds (x, y) = some r ∧
      r.toInt = (if Even (euclidSteps m k) then σ else τ) * (m.gcd k : ℕ) := by
  induction rounds generalizing σ τ m k x y with
  | zero => exact absurd hrounds (Nat.not_lt_zero k)
  | succ rounds ih =>
    rw [iterate, gcdStep]
    by_cases hk : k = 0
    · have hy0 : y = 0 := by
        rw [← Int64.toInt_inj, hy, hk]
        simp
      rw [if_neg (not_not.mpr hy0)]
      refine ⟨x, rfl, ?_⟩
      rw [hk, euclidSteps_zero, if_pos Even.zero, Nat.gcd_zero_right, hx]
    · have hτ : τ = 1 ∨ τ = -1 := by
        rcases hsigns with ⟨-, h⟩ | ⟨-, h⟩ | ⟨-, h⟩ <;> simp [h]
      have hy0 : y.toInt ≠ 0 := by
        rcases hτ with rfl | rfl <;> omega
      have hnonneg : 0 ≤ x.toInt ∨ 0 ≤ y.toInt := by
        rcases hsigns with ⟨rfl, -⟩ | ⟨rfl, -⟩ | ⟨-, rfl⟩ <;> omega
      have hrem : (x % y).toInt = σ * (m % k : ℕ) := by
        rw [Int64.toInt_mod, hx, hy]
        rcases hsigns with ⟨rfl, rfl⟩ | ⟨rfl, rfl⟩ | ⟨rfl, rfl⟩ <;>
          simp [Int.neg_tmod, Int.tmod_eq_emod_of_nonneg]
      have hyne : y ≠ 0 := fun h => hy0 (by rw [h, Int64.toInt_zero])
      rw [if_pos hyne, checkedRem_of_ne hy0 hnonneg]
      obtain ⟨r, heq, hr⟩ := ih hsigns.swap hy hrem
        (lt_of_lt_of_le (Nat.mod_lt m (Nat.pos_of_ne_zero hk)) (Nat.le_of_lt_succ hrounds))
      have hgcd : k.gcd (m % k) = m.gcd k := by
        rw [Nat.gcd_comm k, ← Nat.gcd_rec, Nat.gcd_comm]
      refine ⟨r, heq, hr.trans ?_⟩
      rw [euclidSteps_of_ne hk, hgcd]
      by_cases heven : Even (euclidSteps k (m % k))
      · rw [if_pos heven, if_neg (fun h => Nat.even_add_one.mp h heven)]
      · rw [if_neg heven, if_pos (Nat.even_add_one.mpr heven)]

/-- The sign that is left when a word is negated if it is negative. -/
def absSign (a : Int64) : ℤ := if a = Int64.minValue then -1 else 1

variable {a b n : Int64}

theorem toInt_wordAbs (a : Int64) :
    (if a < 0 then -a else a).toInt = absSign a * a.toInt.natAbs := by
  have hlo := a.le_toInt
  split_ifs with hneg
  · have hneg' : a.toInt < 0 := by
      rwa [Int64.lt_iff_toInt_lt, Int64.toInt_zero] at hneg
    rw [absSign, Int64.toInt_neg]
    split_ifs with hmin
    · subst hmin
      decide
    · have hne : a.toInt ≠ -9223372036854775808 := fun h => hmin (Int64.toInt_inj.mp h)
      have hfits : Fits (-a.toInt) := ⟨by omega, by omega⟩
      rw [bmod_of_fits hfits]
      omega
  · have hpos : 0 ≤ a.toInt := by
      rw [Int64.lt_iff_toInt_lt, Int64.toInt_zero] at hneg
      omega
    rw [absSign, if_neg]
    · omega
    · rintro rfl
      revert hpos
      decide

theorem natAbs_toInt_of_eq (h : a = Int64.minValue) : a.toInt.natAbs = 2 ^ 63 := by
  subst h
  decide

theorem natAbs_toInt_lt (h : a ≠ Int64.minValue) : a.toInt.natAbs < 2 ^ 63 := by
  have hlo := a.le_toInt
  have hhi := a.toInt_lt
  have hne : a.toInt ≠ -9223372036854775808 := fun h' => h (Int64.toInt_inj.mp h')
  omega

/-- The greatest common divisor comes with one of the signs of the operands, unless both of them
are the smallest word. -/
theorem gcd_eq (h : a ≠ Int64.minValue ∨ b ≠ Int64.minValue) :
    ∃ r, Mathx.gcd a b = some r ∧
      r.toInt = (if Even (euclidSteps a.toInt.natAbs b.toInt.natAbs) then absSign a else absSign b) *
        (Int.gcd a.toInt b.toInt : ℕ) := by
  have hsigns : Signs (absSign a) (absSign b) := by
    simp only [Signs, absSign]
    split_ifs <;> simp_all
  have hb := toInt_wordAbs b
  refine gcdLoop_rounds hsigns (toInt_wordAbs a) hb ?_
  rw [hb, absSign]
  split_ifs <;> omega

/-- The divisor of the smallest word and the operand is found after an odd number of divisions, so
with the sign of the operand. -/
def SignKept (c : Int64) : Prop := c = 0 ∨ Odd (euclidSteps (2 ^ 63) c.toInt.natAbs)

/-! ## What the functions are for -/

def GcdExact (gcd : Int64 → Int64 → Option Int64) (a b : Int64) : Prop :=
  Fits (Int.gcd a.toInt b.toInt) → ∃ r, gcd a b = some r ∧ r.toInt = Int.gcd a.toInt b.toInt

def LcmExact (lcm : Int64 → Int64 → Option Int64) (a b : Int64) : Prop :=
  Fits (Int.lcm a.toInt b.toInt) → ∃ r, lcm a b = some r ∧ r.toInt = Int.lcm a.toInt b.toInt

def IsqrtExact (n : Int64) : Prop :=
  0 ≤ n → ∃ r, Mathx.isqrt n = some r ∧ IsGreatest {k : ℤ | k * k ≤ n.toInt} r.toInt

def IsPrimeExact (n : Int64) : Prop :=
  ∃ p, Mathx.isPrime n = some p ∧ (p = true ↔ ∃ q : ℕ, n.toInt = q ∧ q.Prime)

/-! ## Divisors and multiples -/

theorem absSign_eq_or (a : Int64) : absSign a = 1 ∨ absSign a = -1 := by
  rw [absSign]
  split_ifs <;> simp

theorem gcdExact_iff_sign (h : a ≠ Int64.minValue ∨ b ≠ Int64.minValue)
    (hfits : Fits (Int.gcd a.toInt b.toInt)) (hpos : Int.gcd a.toInt b.toInt ≠ 0) :
    GcdExact Mathx.gcd a b ↔
      (if Even (euclidSteps a.toInt.natAbs b.toInt.natAbs) then absSign a else absSign b) = 1 := by
  obtain ⟨r, heq, hr⟩ := gcd_eq h
  have hexact : GcdExact Mathx.gcd a b ↔ r.toInt = Int.gcd a.toInt b.toInt := by
    constructor
    · intro hgcd
      obtain ⟨r', heq', hr'⟩ := hgcd hfits
      rw [heq] at heq'
      cases heq'
      exact hr'
    · exact fun hr' _ => ⟨r, heq, hr'⟩
  have hsign : (if Even (euclidSteps a.toInt.natAbs b.toInt.natAbs) then absSign a
      else absSign b) = 1 ∨ (if Even (euclidSteps a.toInt.natAbs b.toInt.natAbs) then absSign a
      else absSign b) = -1 := by
    split_ifs
    · exact absSign_eq_or a
    · exact absSign_eq_or b
  rw [hexact, hr]
  rcases hsign with hs | hs <;> rw [hs] <;> omega

theorem natAbs_ne_zero_iff : a.toInt.natAbs ≠ 0 ↔ a ≠ 0 := by
  rw [Int.natAbs_ne_zero, ne_eq, ← Int64.toInt_zero, Int64.toInt_inj]

theorem signAfter_eq_one_iff (n : ℕ) :
    ((if Even n then -1 else 1 : ℤ) = 1 ↔ Odd n) ∧
      ((if Even (n + 1) then 1 else -1 : ℤ) = 1 ↔ Odd n) := by
  rcases Nat.even_or_odd n with h | h
  · have hodd := Nat.not_odd_iff_even.mpr h
    rw [if_pos h, if_neg (fun h' => Nat.even_add_one.mp h' h)]
    simp [hodd]
  · have heven := Nat.not_even_iff_odd.mpr h
    rw [if_neg heven, if_pos (Nat.even_add_one.mpr heven)]
    simp [h]

/-- One of the operands is the smallest word. -/
theorem gcdExact_minValue_iff (hb : b ≠ Int64.minValue) :
    (GcdExact Mathx.gcd Int64.minValue b ↔ SignKept b) ∧
      (GcdExact Mathx.gcd b Int64.minValue ↔ SignKept b) := by
  have hmin : absSign Int64.minValue = -1 := if_pos rfl
  have hone : absSign b = 1 := if_neg hb
  have hbound := natAbs_toInt_lt hb
  have hminAbs : Int64.minValue.toInt.natAbs = 2 ^ 63 := natAbs_toInt_of_eq rfl
  by_cases hzero : b = 0
  · subst hzero
    have hkept : SignKept 0 := .inl rfl
    refine ⟨iff_of_true (fun hfits => ?_) hkept, iff_of_true (fun hfits => ?_) hkept⟩ <;>
      exact absurd hfits (by decide)
  · have hne := natAbs_ne_zero_iff.mpr hzero
    have hsteps : euclidSteps b.toInt.natAbs (2 ^ 63) =
        euclidSteps (2 ^ 63) b.toInt.natAbs + 1 := by
      rw [euclidSteps_of_ne (by decide), Nat.mod_eq_of_lt hbound]
    have hgcd : Int.gcd Int64.minValue.toInt b.toInt ≤ b.toInt.natAbs :=
      Nat.gcd_le_right _ (Nat.pos_of_ne_zero hne)
    have hpos : Int.gcd Int64.minValue.toInt b.toInt ≠ 0 := by
      rw [ne_eq, Int.gcd_eq_zero_iff]
      rintro ⟨h, -⟩
      revert h
      decide
    have hfits : Fits (Int.gcd Int64.minValue.toInt b.toInt) := ⟨by omega, by omega⟩
    constructor
    · rw [gcdExact_iff_sign (.inr hb) hfits hpos, hminAbs, hmin, hone, (signAfter_eq_one_iff _).1,
        SignKept, or_iff_right hzero]
    · rw [gcdExact_iff_sign (.inl hb) (Int.gcd_comm _ _ ▸ hfits) (Int.gcd_comm _ _ ▸ hpos),
        hminAbs, hmin, hone, hsteps, (signAfter_eq_one_iff _).2, SignKept, or_iff_right hzero]

theorem gcdExact_iff :
    GcdExact Mathx.gcd a b ↔
      (a = Int64.minValue → SignKept b) ∧ (b = Int64.minValue → SignKept a) := by
  by_cases ha : a = Int64.minValue
  · by_cases hb : b = Int64.minValue
    · subst ha hb
      have hkept : SignKept Int64.minValue := by
        right
        rw [natAbs_toInt_of_eq rfl, euclidSteps_of_ne (by decide), Nat.mod_self, euclidSteps_zero]
        exact odd_one
      exact iff_of_true (fun hfits => absurd hfits (by decide)) ⟨fun _ => hkept, fun _ => hkept⟩
    · subst ha
      rw [(gcdExact_minValue_iff hb).1]
      simp [hb]
  · by_cases hb : b = Int64.minValue
    · subst hb
      rw [(gcdExact_minValue_iff ha).2]
      simp [ha]
    · refine iff_of_true (fun _ => ?_) ⟨fun h => absurd h ha, fun h => absurd h hb⟩
      obtain ⟨r, heq, hr⟩ := gcd_eq (b := b) (.inl ha)
      refine ⟨r, heq, ?_⟩
      rw [hr, absSign, absSign, if_neg ha, if_neg hb, ite_self, one_mul]

/-- The multiple fits only if neither operand is the smallest word, or one of them is zero. -/
theorem lcmExact (a b : Int64) : LcmExact Mathx.lcm a b := by
  intro hfits
  by_cases hzero : a = 0 ∨ b = 0
  · refine ⟨0, if_pos hzero, ?_⟩
    rcases hzero with rfl | rfl <;> simp
  · obtain ⟨ha0, hb0⟩ := not_or.mp hzero
    have ha0' := natAbs_ne_zero_iff.mpr ha0
    have hb0' := natAbs_ne_zero_iff.mpr hb0
    have hlcm : Int.lcm a.toInt b.toInt < 2 ^ 63 := by
      have := hfits.2
      omega
    have hle : a.toInt.natAbs ≤ Int.lcm a.toInt b.toInt :=
      Nat.le_of_dvd (Nat.lcm_pos (by omega) (by omega)) (Nat.dvd_lcm_left _ _)
    have hle' : b.toInt.natAbs ≤ Int.lcm a.toInt b.toInt :=
      Nat.le_of_dvd (Nat.lcm_pos (by omega) (by omega)) (Nat.dvd_lcm_right _ _)
    have ha : a ≠ Int64.minValue := fun h => by
      rw [natAbs_toInt_of_eq h] at hle
      omega
    have hb : b ≠ Int64.minValue := fun h => by
      rw [natAbs_toInt_of_eq h] at hle'
      omega
    obtain ⟨g, heq, hg⟩ := gcd_eq (b := b) (.inl ha)
    have hg' : g.toInt = Int.gcd a.toInt b.toInt := by
      rw [hg, absSign, absSign, if_neg ha, if_neg hb, ite_self, one_mul]
    have hpos : 0 < Int.gcd a.toInt b.toInt := Nat.gcd_pos_of_pos_left _ (by omega)
    have habs : (if a < 0 then -a else a).toInt = a.toInt.natAbs := by
      rw [toInt_wordAbs, absSign, if_neg ha, one_mul]
    have habs' : (if b < 0 then -b else b).toInt = b.toInt.natAbs := by
      rw [toInt_wordAbs, absSign, if_neg hb, one_mul]
    have hquot : (a.toInt.natAbs : ℤ) / Int.gcd a.toInt b.toInt * b.toInt.natAbs =
        Int.lcm a.toInt b.toInt := by
      norm_cast
      exact Nat.div_mul_right_comm (Nat.gcd_dvd_left _ _) _
    refine ⟨(if a < 0 then -a else a) / g * (if b < 0 then -b else b), ?_, ?_⟩
    · rw [Mathx.lcm, if_neg hzero, heq]
      show (checkedDiv (if a < 0 then -a else a) g).bind _ = _
      rw [checkedDiv_of_pos hg' (by omega)]
      rfl
    · rw [mul (div habs hg' (by omega) (by omega)) habs' (hquot ▸ hfits), hquot]

/-! ## Square roots -/

/-- What the binary search knows: the root is between `lo` and `hi`. Their sum does not overflow,
for `lo` stays at one until `hi` has come down. -/
structure Bracket (n lo hi : Int64) : Prop where
  lo_pos : 1 ≤ lo.toInt
  lo_le : lo.toInt ≤ hi.toInt
  hi_le : hi.toInt ≤ n.toInt
  lo_sq : lo.toInt * lo.toInt ≤ n.toInt
  hi_sq : n.toInt < (hi.toInt + 1) * (hi.toInt + 1)
  small : hi.toInt < 2 ^ 62 ∨ lo.toInt = 1

/-- The integer square root. -/
def IsRoot (n r : ℤ) : Prop := 0 ≤ r ∧ r * r ≤ n ∧ n < (r + 1) * (r + 1)

variable {lo hi : Int64}

theorem Bracket.step (h : Bracket n lo hi) (hn : n.toInt ≤ 9223372036854775805) :
    (∃ t, Mathx.isqrtStep n (lo, hi) = some (.inl t) ∧ Bracket n t.1 t.2 ∧
      (t.2.toInt - t.1.toInt).toNat < (hi.toInt - lo.toInt).toNat) ∨
    ∃ r, Mathx.isqrtStep n (lo, hi) = some (.inr r) ∧ IsRoot n.toInt r.toInt := by
  obtain ⟨hlo, hle, hhi, hsq, hsq', hsmall⟩ := h
  by_cases hlt : lo < hi
  · have hlt' := Int64.lt_iff_toInt_lt.mp hlt
    have hmid : ((lo + hi + 1) / 2).toInt = (lo.toInt + hi.toInt + 1) / 2 :=
      div (add (add rfl rfl ⟨by omega, by omega⟩) rfl ⟨by omega, by omega⟩) rfl (by omega)
        (by decide)
    rw [Mathx.isqrtStep, if_pos hlt]
    dsimp only
    generalize (lo + hi + 1) / 2 = mid at hmid
    have hpos : 0 < mid.toInt := by omega
    have hquot : (n / mid).toInt = n.toInt / mid.toInt := div rfl rfl (by omega) hpos
    have hcmp : mid ≤ n / mid ↔ mid.toInt * mid.toInt ≤ n.toInt := by
      rw [Int64.le_iff_toInt_le, hquot, Int.le_ediv_iff_mul_le hpos]
    left
    rw [checkedDiv_of_pos rfl hpos, Option.map_some]
    by_cases hcase : mid.toInt * mid.toInt ≤ n.toInt
    · rw [if_pos (hcmp.mpr hcase)]
      -- in the first round of a large word, the middle is far above the root
      have hsmall' : hi.toInt < 2 ^ 62 := by
        by_contra hbig
        have hlarge : 2 ^ 61 * 2 ^ 61 ≤ mid.toInt * mid.toInt :=
          mul_le_mul (by omega) (by omega) (by decide) (by omega)
        omega
      have hle' : mid.toInt ≤ hi.toInt := by omega
      have hless : (hi.toInt - mid.toInt).toNat < (hi.toInt - lo.toInt).toNat := by omega
      exact ⟨(mid, hi), rfl, ⟨hpos, hle', hhi, hcase, hsq', .inl hsmall'⟩, hless⟩
    · rw [if_neg (fun h => hcase (hcmp.mp h))]
      have hpred : (mid - 1).toInt = mid.toInt - 1 :=
        sub rfl rfl ⟨by omega, by have := mid.toInt_lt; omega⟩
      refine ⟨_, rfl, ⟨hlo, ?_, ?_, hsq, ?_, ?_⟩, ?_⟩ <;> dsimp only <;> rw [hpred]
      · omega
      · omega
      · rw [sub_add_cancel]
        exact not_le.mp hcase
      · omega
      · omega
  · have hEq : hi.toInt = lo.toInt := by
      rw [Int64.lt_iff_toInt_lt] at hlt
      omega
    right
    refine ⟨lo, if_neg hlt, by omega, hsq, ?_⟩
    rwa [hEq] at hsq'

theorem isqrt_rounds (h : Bracket n lo hi) (hn : n.toInt ≤ 9223372036854775805) {rounds : ℕ}
    (hrounds : (hi.toInt - lo.toInt).toNat < rounds) :
    ∃ r, iterate (Mathx.isqrtStep n) rounds (lo, hi) = some r ∧ IsRoot n.toInt r.toInt :=
  iterate_spec (I := fun t => Bracket n t.1 t.2) (fun t => (t.2.toInt - t.1.toInt).toNat)
    (fun _ ht => ht.step hn) h hrounds

/-- The two words for which the sum of the first round overflows: the search goes on with negative
bounds and still comes to the root. -/
theorem isqrt_rounds_of_overflow (hn : 9223372036854775805 < n.toInt) :
    iterate (Mathx.isqrtStep n) 66 (1, n) = some 3037000499 := by
  have hlt := n.toInt_lt
  have hor : n.toInt = 9223372036854775806 ∨ n.toInt = 9223372036854775807 := by omega
  rcases hor with h | h
  · have : n = 9223372036854775806 := Int64.toInt_inj.mp h
    subst this
    decide
  · have : n = 9223372036854775807 := Int64.toInt_inj.mp h
    subst this
    decide

/-- The square root is exact. -/
theorem isqrt_eq (h : 0 ≤ n.toInt) : ∃ r, Mathx.isqrt n = some r ∧ IsRoot n.toInt r.toInt := by
  have hneg : ¬n < 0 := by
    rw [Int64.lt_iff_toInt_lt, Int64.toInt_zero]
    omega
  rw [Mathx.isqrt, if_neg hneg]
  by_cases htwo : n < 2
  · have htwo' := Int64.lt_iff_toInt_lt.mp htwo
    rw [show (2 : Int64).toInt = 2 from rfl] at htwo'
    refine ⟨n, if_pos htwo, ?_⟩
    have hor : n.toInt = 0 ∨ n.toInt = 1 := by omega
    rcases hor with hn | hn <;> rw [hn] <;> exact ⟨by decide, by decide, by decide⟩
  · rw [if_neg htwo]
    have htwo' : 2 ≤ n.toInt := by
      rw [Int64.lt_iff_toInt_lt, show (2 : Int64).toInt = 2 from rfl] at htwo
      omega
    by_cases hn : n.toInt ≤ 9223372036854775805
    · have hone : (1 : Int64).toInt = 1 := rfl
      have hle : (1 : Int64).toInt ≤ n.toInt := by omega
      have hsq : (1 : Int64).toInt * (1 : Int64).toInt ≤ n.toInt := by
        rw [hone]
        omega
      refine isqrt_rounds ⟨le_rfl, hle, le_rfl, hsq, ?_, .inr rfl⟩ hn (by omega)
      calc n.toInt < n.toInt + 1 := Int.lt_succ _
        _ ≤ (n.toInt + 1) * (n.toInt + 1) := le_mul_of_one_le_left (by omega) (by omega)
    · refine ⟨3037000499, iterate_mono (isqrt_rounds_of_overflow (by omega)) (by omega), ?_⟩
      have hlt := n.toInt_lt
      refine ⟨by decide, ?_, ?_⟩
      · rw [show (3037000499 : Int64).toInt = 3037000499 from rfl]
        omega
      · rw [show (3037000499 : Int64).toInt = 3037000499 from rfl]
        omega

theorem IsRoot.isGreatest {n r : ℤ} (h : IsRoot n r) : IsGreatest {k : ℤ | k * k ≤ n} r := by
  obtain ⟨hr, hle, hlt⟩ := h
  refine ⟨hle, fun k hk => ?_⟩
  by_contra hgt
  have hsq : (r + 1) * (r + 1) ≤ k * k := mul_self_le_mul_self (by omega) (by omega)
  exact absurd (hlt.trans_le hsq) (not_lt.mpr hk)

theorem isqrtExact (n : Int64) : IsqrtExact n := by
  intro hn
  obtain ⟨r, heq, hr⟩ := isqrt_eq (Int64.le_iff_toInt_le.mp hn)
  exact ⟨r, heq, hr.isGreatest⟩

theorem IsRoot.eq_sqrt {m : ℕ} {r : ℤ} (h : IsRoot m r) : r = Nat.sqrt m := by
  obtain ⟨hr, hle, hlt⟩ := h
  obtain ⟨k, rfl⟩ := Int.eq_ofNat_of_zero_le hr
  have hk : k = Nat.sqrt m := Nat.eq_sqrt.mpr ⟨by exact_mod_cast hle, by exact_mod_cast hlt⟩
  rw [hk]

/-! ## Primes -/

/-- What the trial division knows: `i` is odd and no smaller number divides `m`. -/
structure Tried (m : ℕ) (i : Int64) (k : ℕ) : Prop where
  toInt_eq : i.toInt = k
  three_le : 3 ≤ k
  le_sqrt : k ≤ Nat.sqrt m + 2
  odd : Odd k
  not_dvd : ∀ j, 2 ≤ j → j < k → ¬j ∣ m

theorem Tried.step {m k : ℕ} {limit i : Int64} (h : Tried m i k) (hn : n.toInt = m) (hm : Odd m)
    (hm2 : 2 ≤ m) (hlimit : limit.toInt = Nat.sqrt m) :
    (∃ t, Mathx.isPrimeStep n limit i = some (.inl t) ∧ Tried m t (k + 2) ∧ k ≤ Nat.sqrt m) ∨
    ∃ p, Mathx.isPrimeStep n limit i = some (.inr p) ∧ (p = true ↔ m.Prime) := by
  obtain ⟨hi, hthree, hle, hodd, hnot⟩ := h
  have hsqrt : Nat.sqrt m < m := Nat.sqrt_lt_self (by omega)
  have hnlt := n.toInt_lt
  rw [Mathx.isPrimeStep]
  by_cases hcase : i ≤ limit
  · have hk : k ≤ Nat.sqrt m := by
      rw [Int64.le_iff_toInt_le, hi, hlimit] at hcase
      exact_mod_cast hcase
    have hrem : (n % i).toInt = (m % k : ℕ) := by
      rw [Int64.toInt_mod, hn, hi]
      rfl
    rw [if_pos hcase, checkedRem_of_ne (by omega) (.inr (by omega)), Option.map_some]
    by_cases hdvd : k ∣ m
    · have hzero : n % i = 0 := by
        rw [← Int64.toInt_inj, hrem, Nat.mod_eq_zero_of_dvd hdvd, Int64.toInt_zero, Nat.cast_zero]
      rw [if_pos hzero]
      refine .inr ⟨false, rfl, iff_of_false Bool.false_ne_true fun hprime => ?_⟩
      rcases (Nat.dvd_prime hprime).mp hdvd with h | h <;> omega
    · have hzero : n % i ≠ 0 := fun h => hdvd (Nat.dvd_of_mod_eq_zero (by
        rw [← Int64.toInt_inj, hrem, Int64.toInt_zero] at h
        exact_mod_cast h))
      rw [if_neg hzero]
      have hsq := Nat.sqrt_le m
      have hroot : Nat.sqrt m < 2 ^ 32 := by
        by_contra hbig
        have : 2 ^ 32 * 2 ^ 32 ≤ Nat.sqrt m * Nat.sqrt m :=
          Nat.mul_le_mul (not_lt.mp hbig) (not_lt.mp hbig)
        omega
      have htwo : (i + 2).toInt = k + 2 := add hi rfl ⟨by omega, by omega⟩
      refine .inl ⟨i + 2, rfl, ⟨by exact_mod_cast htwo, by omega, by omega, ?_, ?_⟩, hk⟩
      · exact hodd.add_even even_two
      · intro j hj hjk hjm
        rcases Nat.lt_trichotomy j k with h | rfl | h
        · exact hnot j hj h hjm
        · exact hdvd hjm
        · -- the number after an odd one is even
          have hEq : j = k + 1 := by omega
          have heven : Even j := hEq ▸ hodd.add_one
          exact Nat.not_even_iff_odd.mpr hm (even_iff_two_dvd.mpr
            ((even_iff_two_dvd.mp heven).trans hjm))
  · rw [if_neg hcase]
    have hk : Nat.sqrt m < k := by
      rw [Int64.le_iff_toInt_le, hi, hlimit] at hcase
      exact_mod_cast not_le.mp hcase
    refine .inr ⟨true, rfl, iff_of_true rfl (Nat.prime_def_le_sqrt.mpr ⟨hm2, fun j hj hjle => ?_⟩)⟩
    exact hnot j hj (by omega)

theorem isPrime_rounds {m : ℕ} {limit : Int64} (hn : n.toInt = m) (hm : Odd m) (hm2 : 5 ≤ m)
    (hlimit : limit.toInt = Nat.sqrt m) {rounds : ℕ} (hrounds : Nat.sqrt m ≤ rounds) :
    ∃ p, iterate (Mathx.isPrimeStep n limit) (rounds + 1) 3 = some p ∧ (p = true ↔ m.Prime) := by
  have hsqrt : 2 ≤ Nat.sqrt m := Nat.le_sqrt.mpr (by omega)
  have hstart : Tried m 3 3 :=
    ⟨rfl, le_rfl, by omega, by decide, fun j hj hj3 hdvd => by
      have hEq : j = 2 := by omega
      exact Nat.not_even_iff_odd.mpr hm (even_iff_two_dvd.mpr (hEq ▸ hdvd))⟩
  refine iterate_spec (I := fun i => ∃ k, Tried m i k)
    (fun i => (Nat.sqrt m + 2 - i.toInt).toNat) (fun i ⟨k, hk⟩ => ?_) ⟨3, hstart⟩ ?_
  · rcases hk.step hn hm (by omega) hlimit with ⟨t, heq, ht, hle⟩ | hdone
    · refine .inl ⟨t, heq, ⟨_, ht⟩, ?_⟩
      rw [ht.toInt_eq, hk.toInt_eq]
      omega
    · exact .inr hdone
  · rw [hstart.toInt_eq]
    omega

theorem isPrimeExact (n : Int64) : IsPrimeExact n := by
  have htwo : n < 2 ↔ n.toInt < 2 := Int64.lt_iff_toInt_lt
  have hfour : n < 4 ↔ n.toInt < 4 := Int64.lt_iff_toInt_lt
  rw [IsPrimeExact, Mathx.isPrime]
  by_cases h2 : n < 2
  · refine ⟨false, if_pos h2, iff_of_false Bool.false_ne_true ?_⟩
    rintro ⟨q, hq, hprime⟩
    have := hprime.two_le
    have := htwo.mp h2
    omega
  rw [if_neg h2]
  have h2' : 2 ≤ n.toInt := not_lt.mp fun h => h2 (htwo.mpr h)
  obtain ⟨m, hm⟩ := Int.eq_ofNat_of_zero_le (show 0 ≤ n.toInt by omega)
  have hprime_iff : (∃ q : ℕ, n.toInt = q ∧ q.Prime) ↔ m.Prime :=
    ⟨fun ⟨q, hq, hprime⟩ => by rwa [Int.ofNat_inj.mp (hm.symm.trans hq)], fun h => ⟨m, hm, h⟩⟩
  rw [hprime_iff]
  by_cases h4 : n < 4
  · have h4' := hfour.mp h4
    have hor : m = 2 ∨ m = 3 := by omega
    refine ⟨true, if_pos h4, iff_of_true rfl ?_⟩
    rcases hor with rfl | rfl <;> decide
  rw [if_neg h4]
  have h4' : 4 ≤ n.toInt := not_lt.mp fun h => h4 (hfour.mpr h)
  have hrem : (n % 2).toInt = (m % 2 : ℕ) := by
    rw [Int64.toInt_mod, hm]
    rfl
  by_cases heven : n % 2 = 0
  · have hdvd : 2 ∣ m := by
      rw [← Int64.toInt_inj, hrem, Int64.toInt_zero] at heven
      exact Nat.dvd_of_mod_eq_zero (by exact_mod_cast heven)
    refine ⟨false, if_pos heven, iff_of_false Bool.false_ne_true fun hprime => ?_⟩
    have := (Nat.prime_dvd_prime_iff_eq Nat.prime_two hprime).mp hdvd
    omega
  · have hodd : Odd m := by
      rw [Nat.odd_iff]
      rw [← Int64.toInt_inj, hrem, Int64.toInt_zero] at heven
      omega
    rw [if_neg heven]
    obtain ⟨limit, heq, hroot⟩ := isqrt_eq (n := n) (by omega)
    rw [hm] at hroot
    have hlimit := hroot.eq_sqrt
    have hfive : 5 ≤ m := by
      have := Nat.odd_iff.mp hodd
      omega
    rw [heq]
    exact isPrime_rounds hm hodd hfive hlimit (by omega)

/-! ## All of the functions -/

theorem Math.gcd_eq_mathx : Math.gcd = Mathx.gcd := rfl

theorem Math.lcm_eq_mathx : Math.lcm = Mathx.lcm := by
  funext a b
  simp only [Math.lcm, Mathx.lcm, Math.gcd_eq_mathx, Int64.zero_sub]

/-- Integer mathematics is exact on all words, but for the divisor of the smallest word and an
operand whose sign it does not keep. -/
theorem integerMath_exact_iff (a b n : Int64) :
    (GcdExact Mathx.gcd a b ∧ LcmExact Mathx.lcm a b ∧ GcdExact Math.gcd a b ∧
        LcmExact Math.lcm a b ∧ IsqrtExact n ∧ IsPrimeExact n) ↔
      (a = Int64.minValue → SignKept b) ∧ (b = Int64.minValue → SignKept a) := by
  rw [Math.gcd_eq_mathx, Math.lcm_eq_mathx]
  constructor
  · rintro ⟨hgcd, -⟩
    exact gcdExact_iff.mp hgcd
  · intro h
    have hgcd := gcdExact_iff.mpr h
    exact ⟨hgcd, lcmExact a b, hgcd, lcmExact a b, isqrtExact n, isPrimeExact n⟩

theorem gcd_minValue_six :
    Mathx.gcd Int64.minValue 6 = some (-2) ∧ Math.gcd Int64.minValue 6 = some (-2) ∧
      Int.gcd Int64.minValue.toInt (6 : Int64).toInt = 2 := by
  decide +kernel

end Kryos.Stdlib

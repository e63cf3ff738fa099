import Mathlib.Algebra.Order.Group.Nat
import Mathlib.Tactic.Ring

/-!
# Decimal numerals

Numbers as texts of ASCII digits, and the number that a text of digits stands for.

## Main results

* `Decimal.value_digits` — a number is read back from its digits
* `Decimal.length_digits_le_iff` — `k` digits are enough for the numbers below `10 ^ k`
-/

namespace Decimal

def isDigit (b : UInt8) : Bool := '0'.toUInt8 ≤ b && b ≤ '9'.toUInt8

def value (ds : List UInt8) : ℕ := ds.foldl (fun n b => 10 * n + (b.toNat - '0'.toNat)) 0

def digits (n : ℕ) : List UInt8 := (Nat.toDigits 10 n).map Char.toUInt8

theorem toNat_of_isDigit {c : Char} (h : c.isDigit = true) :
    48 ≤ c.toNat ∧ c.toNat ≤ 57 := by
  simp only [Char.isDigit, Bool.and_eq_true, decide_eq_true_eq, ge_iff_le,
    UInt32.le_iff_toNat_le] at h
  exact h

theorem toNat_toUInt8 {c : Char} (h : c.isDigit = true) : c.toUInt8.toNat = c.toNat := by
  have hn := toNat_of_isDigit h
  show c.val.toNat % 256 = c.val.toNat
  rw [Char.toNat] at hn
  omega

theorem isDigit_toUInt8 {c : Char} (h : c.isDigit = true) : isDigit c.toUInt8 = true := by
  rw [isDigit, Bool.and_eq_true, decide_eq_true_eq, decide_eq_true_eq, UInt8.le_iff_toNat_le,
    UInt8.le_iff_toNat_le, toNat_toUInt8 h]
  exact toNat_of_isDigit h

theorem foldl_digits {ds : List Char} (h : ∀ c ∈ ds, c.isDigit = true) (n : ℕ) :
    (ds.map Char.toUInt8).foldl (fun n b => 10 * n + (b.toNat - '0'.toNat)) n =
      Nat.ofDigitChars 10 ds n := by
  induction ds generalizing n with
  | nil => rfl
  | cons c ds ih =>
    rw [List.forall_mem_cons] at h
    rw [List.map_cons, List.foldl_cons, toNat_toUInt8 h.1, ih h.2]
    rfl

/-- A number is read back from its digits. -/
theorem value_digits (n : ℕ) : value (digits n) = n := by
  rw [value, digits, foldl_digits fun c hc =>
    Nat.isDigit_of_mem_toDigits (by decide) (by decide) hc]
  exact Nat.ofDigitChars_ten_toDigits

theorem foldl_lt {ds : List UInt8} (h : ∀ b ∈ ds, isDigit b = true) (n : ℕ) :
    ds.foldl (fun n b => 10 * n + (b.toNat - '0'.toNat)) n < (n + 1) * 10 ^ ds.length := by
  induction ds generalizing n with
  | nil => simp
  | cons b ds ih =>
    rw [List.forall_mem_cons] at h
    have hb := h.1
    rw [isDigit, Bool.and_eq_true, decide_eq_true_eq, decide_eq_true_eq, UInt8.le_iff_toNat_le,
      UInt8.le_iff_toNat_le] at hb
    have hdigit : b.toNat - '0'.toNat + 1 ≤ 10 := by
      have h9 : '9'.toUInt8.toNat = 57 := rfl
      have h0 : '0'.toNat = 48 := rfl
      omega
    have hle : 10 * n + (b.toNat - '0'.toNat) + 1 ≤ (n + 1) * 10 := by omega
    rw [List.foldl_cons, List.length_cons, pow_succ']
    calc ds.foldl (fun n b => 10 * n + (b.toNat - '0'.toNat)) (10 * n + (b.toNat - '0'.toNat))
        < (10 * n + (b.toNat - '0'.toNat) + 1) * 10 ^ ds.length := ih h.2 _
      _ ≤ (n + 1) * 10 * 10 ^ ds.length := Nat.mul_le_mul_right _ hle
      _ = (n + 1) * (10 * 10 ^ ds.length) := Nat.mul_assoc _ _ _

theorem le_foldl (ds : List UInt8) (n : ℕ) :
    n * 10 ^ ds.length ≤ ds.foldl (fun n b => 10 * n + (b.toNat - '0'.toNat)) n := by
  induction ds generalizing n with
  | nil => simp
  | cons b ds ih =>
    rw [List.foldl_cons, List.length_cons, pow_succ', ← Nat.mul_assoc, Nat.mul_comm n 10]
    exact (Nat.mul_le_mul_right _ (Nat.le_add_right _ _)).trans (ih _)

theorem value_lt {ds : List UInt8} (h : ∀ b ∈ ds, isDigit b = true) : value ds < 10 ^ ds.length :=
  (foldl_lt h 0).trans_eq (by rw [Nat.zero_add, Nat.one_mul])

theorem isDigit_of_mem_digits {n : ℕ} {b : UInt8} (h : b ∈ digits n) : isDigit b = true := by
  obtain ⟨c, hc, rfl⟩ := List.mem_map.mp h
  exact isDigit_toUInt8 (Nat.isDigit_of_mem_toDigits (by decide) (by decide) hc)

theorem digits_ne_nil (n : ℕ) : digits n ≠ [] := by
  rw [digits, ne_eq, List.map_eq_nil_iff]
  exact Nat.toDigits_ne_nil

theorem length_digits_le_iff {n k : ℕ} (hk : 0 < k) : (digits n).length ≤ k ↔ n < 10 ^ k := by
  rw [digits, List.length_map]
  exact Nat.length_toDigits_le_iff (by decide) hk

/-- The only number that begins with a zero is zero. -/
theorem eq_nil_of_digits_eq_zero_cons {n : ℕ} {ds : List UInt8}
    (h : digits n = '0'.toUInt8 :: ds) : ds = [] := by
  by_contra hne
  have hvalue : value ds = n := by rw [← value_digits n, h]; rfl
  have hlt := value_lt fun b hb => isDigit_of_mem_digits (n := n) (h ▸ List.mem_cons_of_mem _ hb)
  rw [hvalue, ← length_digits_le_iff (List.length_pos_iff.mpr hne), h, List.length_cons] at hlt
  exact Nat.not_succ_le_self _ hlt

end Decimal

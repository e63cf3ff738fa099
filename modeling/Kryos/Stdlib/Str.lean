import Kryos.Lib.Decimal
import Kryos.Lib.Segments

/-!
# Texts in the standard library

A text of the language is a list of bytes. The builtins that the modules of the library are written
with work on byte positions, and panic outside of the text.

## Main results

* `Str.slice_of_drop_eq` — a segment of a text, told from what is behind its start
-/

namespace Kryos.Stdlib.Str

open Segments

abbrev Text := List UInt8

inductive Failure where
  /-- `string slice out of bounds: [{start}..{stop}) but length is {length}` -/
  | sliceOutOfBounds (start stop length : ℕ)
  /-- `array index out of bounds: index {index} but length is {length}` -/
  | indexOutOfBounds (index length : ℕ)
  /-- `parse_int: invalid numeric input: '{text}'` -/
  | invalidNumericInput (text : Text)
  /-- `parse_int: '{text}' is out of i64 range` -/
  | outOfI64Range (text : Text)
  /-- `throw message` -/
  | thrown (message : Text)
  /-- a loop of the model was cut off -/
  | outOfFuel
  deriving DecidableEq, Repr

def ascii (cs : List Char) : Text := cs.map Char.toUInt8

/-- `substr`, which panics out of bounds -/
def substring (s : Text) (a b : ℕ) : Except Failure Text :=
  if a ≤ b ∧ b ≤ s.length then .ok (slice s a b)
  else .error (.sliceOutOfBounds a b s.length)

/-- `s[i]`, the text of one byte -/
def charAt (s : Text) (i : ℕ) : Except Failure Text := substring s i (i + 1)

/-- `xs[i]`, which panics out of bounds -/
def item {α : Type} (xs : List α) (i : ℕ) : Except Failure α :=
  match xs[i]? with
  | some x => .ok x
  | none => .error (.indexOutOfBounds i xs.length)

/-- `xs[i] = x`, which panics out of bounds -/
def setItem {α : Type} (xs : List α) (i : ℕ) (x : α) : Except Failure (List α) :=
  if i < xs.length then .ok (xs.set i x) else .error (.indexOutOfBounds i xs.length)

/-- `parse_int` of a text without whitespace around it -/
def parseInt (s : Text) : Except Failure ℤ :=
  let (sign, ds) : ℤ × Text := match s with
    | [] => (1, [])
    | b :: ds => if b = '-'.toUInt8 then (-1, ds) else if b = '+'.toUInt8 then (1, ds) else (1, s)
  let v : ℤ := sign * Decimal.value ds
  if ds = [] ∨ ds.any (fun b => !Decimal.isDigit b) then
    .error (.invalidNumericInput s)
  else if v < -2 ^ 63 ∨ 2 ^ 63 ≤ v then .error (.outOfI64Range s)
  else .ok v

/-- `to_string` of an integer -/
def toText (n : ℤ) : Text :=
  if n < 0 then '-'.toUInt8 :: Decimal.digits n.natAbs else Decimal.digits n.natAbs

variable {s : Text} {i : ℕ}

theorem ok_bind {α β : Type} (a : α) (f : α → Except Failure β) :
    (Except.ok a >>= f) = f a := rfl

theorem substring_ok {a b : ℕ} (hab : a ≤ b) (hb : b ≤ s.length) :
    substring s a b = .ok (slice s a b) :=
  if_pos ⟨hab, hb⟩

theorem substring_to {a : ℕ} (hb : a ≤ s.length) : substring s 0 a = .ok (s.take a) :=
  substring_ok (Nat.zero_le a) hb

theorem substring_from {a : ℕ} (ha : a ≤ s.length) : substring s a s.length = .ok (s.drop a) := by
  rw [substring_ok ha (Nat.le_refl _), slice_length]

theorem charAt_ok (h : i < s.length) : charAt s i = .ok [s[i]] := by
  rw [charAt, substring_ok (Nat.le_succ i) h, slice, List.take_succ_eq_append_getElem h,
    List.drop_left' (List.length_take_of_le h.le)]

theorem item_ok {α : Type} {xs : List α} (h : i < xs.length) : item xs i = .ok xs[i] := by
  rw [item, List.getElem?_eq_getElem h]

theorem slice_of_drop_eq {a b : Text} (h : s.drop i = a ++ b) : slice s i (i + a.length) = a := by
  rw [slice, List.drop_take, Nat.add_sub_cancel_left, h, List.take_left]

theorem isDigit_ne {b c : UInt8} (hb : Decimal.isDigit b = true) (hc : Decimal.isDigit c = false) :
    b ≠ c := by
  rintro rfl
  rw [hb] at hc
  cases hc

/-- An integer of 64 bits is read back from its text. -/
theorem parseInt_toText {n : ℤ} (hlow : -2 ^ 63 ≤ n) (hhigh : n < 2 ^ 63) :
    parseInt (toText n) = .ok n := by
  have hany : ¬(Decimal.digits n.natAbs = [] ∨
      ((Decimal.digits n.natAbs).any fun b => !Decimal.isDigit b) = true) := by
    rw [not_or, List.any_eq_true]
    refine ⟨Decimal.digits_ne_nil _, ?_⟩
    rintro ⟨b, hb, hnot⟩
    rw [Decimal.isDigit_of_mem_digits hb] at hnot
    cases hnot
  rw [toText]
  by_cases hneg : n < 0
  · have hvalue : (-1 : ℤ) * Decimal.value (Decimal.digits n.natAbs) = n := by
      rw [Decimal.value_digits]
      omega
    rw [if_pos hneg]
    simp only [parseInt, if_true]
    rw [if_neg hany, hvalue, if_neg (by omega)]
  · have hvalue : (1 : ℤ) * Decimal.value (Decimal.digits n.natAbs) = n := by
      rw [Decimal.value_digits]
      omega
    rw [if_neg hneg]
    obtain ⟨b, ds, hds⟩ := List.exists_cons_of_ne_nil (Decimal.digits_ne_nil n.natAbs)
    have hb : Decimal.isDigit b = true :=
      Decimal.isDigit_of_mem_digits (hds ▸ List.mem_cons_self)
    rw [hds] at hany hvalue ⊢
    simp only [parseInt, if_neg (isDigit_ne hb (by decide : Decimal.isDigit '-'.toUInt8 = false)),
      if_neg (isDigit_ne hb (by decide : Decimal.isDigit '+'.toUInt8 = false))]
    rw [if_neg hany, hvalue, if_neg (by omega)]

theorem toText_natCast (n : ℕ) : toText n = Decimal.digits n :=
  if_neg (Int.not_lt.mpr (Int.natCast_nonneg n))

end Kryos.Stdlib.Str

import Mathlib.Data.List.Basic
import Mathlib.Data.Nat.Notation

/-!
# Byte offsets in UTF-8

A program that works on the bytes of a text must not stop inside a character. An offset is between
two characters exactly if no continuation byte stands there (`isBoundary_iff`), so a program that
stops at bytes below `0x80` only is always between two characters. The first byte of a character
tells its width (`encodeChar_shape`), so a program can also go on by whole characters.
-/

namespace Utf8

variable {cs : List Char} {n : ℕ}

def encode (cs : List Char) : List UInt8 := cs.flatMap String.utf8EncodeChar

/-- A byte `10xxxxxx`. -/
def isContinuation (b : UInt8) : Bool := 0x80 ≤ b && b < 0xC0

/-- The number of bytes that a first byte announces. No character begins with `C0` or `C1`. -/
def width (b : UInt8) : Option ℕ :=
  if b < 0x80 then some 1
  else if 0xC2 ≤ b ∧ b ≤ 0xDF then some 2
  else if 0xE0 ≤ b ∧ b ≤ 0xEF then some 3
  else if 0xF0 ≤ b ∧ b ≤ 0xF4 then some 4
  else none

/-- The character that the bytes are the encoding of. -/
def decodeChar (bytes : List UInt8) : Option Char :=
  (bytes.toByteArray.utf8DecodeChar? 0).filter fun c => c.utf8Size = bytes.length

/-- The offset `n` is between two characters, at the start or at the end. -/
def IsBoundary (cs : List Char) (n : ℕ) : Prop :=
  ∃ before after, cs = before ++ after ∧ n = (encode before).length

/-- The characters that lie within the bytes from `a` to `b`, the first one being at `offset`. -/
def charsWithin (a b : ℕ) : ℕ → List Char → List Char
  | _, [] => []
  | offset, c :: cs =>
    if a ≤ offset ∧ offset + c.utf8Size ≤ b then c :: charsWithin a b (offset + c.utf8Size) cs
    else charsWithin a b (offset + c.utf8Size) cs

/-! ### The bytes of one character -/

theorem length_encodeChar (c : Char) : (String.utf8EncodeChar c).length = c.utf8Size :=
  String.length_utf8EncodeChar c

theorem decodeChar_encodeChar (c : Char) : decodeChar (String.utf8EncodeChar c) = some c := by
  have hdecode := ByteArray.utf8DecodeChar?_utf8EncodeChar_append (b := ByteArray.empty) (c := c)
  rw [ByteArray.append_empty] at hdecode
  rw [decodeChar, hdecode, Option.filter_some, if_pos]
  rw [decide_eq_true_eq, length_encodeChar]

theorem isContinuation_ofNat {k : ℕ} (hlow : 0x80 ≤ k) (hhigh : k < 0xC0) :
    isContinuation (UInt8.ofNat k) = true := by
  have hmod : k % 256 = k := Nat.mod_eq_of_lt (by omega)
  simp only [isContinuation, Bool.and_eq_true, decide_eq_true_eq, UInt8.le_iff_toNat_le,
    UInt8.lt_iff_toNat_lt, UInt8.toNat_ofNat']
  exact ⟨hmod.symm ▸ hlow, hmod.symm ▸ hhigh⟩

/-- A first byte, given as a number. -/
theorem first_ofNat {k w : ℕ} (hk : k < 256)
    (hw : k < 0x80 ∧ w = 1 ∨ 0xC2 ≤ k ∧ k ≤ 0xDF ∧ w = 2 ∨ 0xE0 ≤ k ∧ k ≤ 0xEF ∧ w = 3 ∨
      0xF0 ≤ k ∧ k ≤ 0xF4 ∧ w = 4) :
    width (UInt8.ofNat k) = some w ∧ isContinuation (UInt8.ofNat k) = false ∧
      (UInt8.ofNat k < 0x80 ↔ w = 1) := by
  have hmod : k % 256 = k := Nat.mod_eq_of_lt hk
  simp only [width, isContinuation, Bool.and_eq_false_iff, decide_eq_false_iff_not,
    UInt8.le_iff_toNat_le, UInt8.lt_iff_toNat_lt, UInt8.toNat_ofNat', UInt8.reduceToNat,
    Nat.reducePow, hmod]
  refine ⟨?_, by omega, by omega⟩
  rcases hw with ⟨h, rfl⟩ | ⟨h, h', rfl⟩ | ⟨h, h', rfl⟩ | ⟨h, h', rfl⟩
  · rw [if_pos h]
  · rw [if_neg (by omega), if_pos ⟨h, h'⟩]
  · rw [if_neg (by omega), if_neg (by omega), if_pos ⟨h, h'⟩]
  · rw [if_neg (by omega), if_neg (by omega), if_neg (by omega), if_pos ⟨h, h'⟩]

/-- The first byte announces the width, and only continuation bytes follow. -/
theorem encodeChar_shape (c : Char) :
    ∃ b rest, String.utf8EncodeChar c = b :: rest ∧ width b = some c.utf8Size ∧
      isContinuation b = false ∧ (b < 0x80 ↔ c.utf8Size = 1) ∧
      ∀ x ∈ rest, isContinuation x = true := by
  have hmax : c.val.toNat ≤ 0x10FFFF := by
    have hvalid := c.valid
    simp only [UInt32.isValidChar, Nat.isValidChar] at hvalid
    omega
  have hsize : c.utf8Size = if c.val.toNat ≤ 0x7F then 1 else if c.val.toNat ≤ 0x7FF then 2
      else if c.val.toNat ≤ 0xFFFF then 3 else 4 := rfl
  rw [hsize, String.utf8EncodeChar]
  generalize c.val.toNat = v at hmax
  split
  · rename_i h
    obtain ⟨hw, hc, hlt⟩ := first_ofNat (k := v) (w := 1) (by omega) (.inl ⟨by omega, rfl⟩)
    exact ⟨_, [], rfl, hw, hc, hlt, nofun⟩
  split
  · rename_i h
    obtain ⟨hw, hc, hlt⟩ := first_ofNat (k := v / 64 % 0x20 + 0xC0) (w := 2) (by omega)
      (.inr (.inl ⟨by omega, by omega, rfl⟩))
    refine ⟨_, _, rfl, hw, hc, hlt, fun x hx => ?_⟩
    rw [List.mem_singleton.mp hx]
    exact isContinuation_ofNat (by omega) (by omega)
  split
  · rename_i h
    obtain ⟨hw, hc, hlt⟩ := first_ofNat (k := v / 4096 % 0x10 + 0xE0) (w := 3) (by omega)
      (.inr (.inr (.inl ⟨by omega, by omega, rfl⟩)))
    refine ⟨_, _, rfl, hw, hc, hlt, fun x hx => ?_⟩
    simp only [List.mem_cons, List.not_mem_nil, or_false] at hx
    rcases hx with rfl | rfl <;> exact isContinuation_ofNat (by omega) (by omega)
  · obtain ⟨hw, hc, hlt⟩ := first_ofNat (k := v / 262144 % 0x08 + 0xF0) (w := 4) (by omega)
      (.inr (.inr (.inr ⟨by omega, by omega, rfl⟩)))
    refine ⟨_, _, rfl, hw, hc, hlt, fun x hx => ?_⟩
    simp only [List.mem_cons, List.not_mem_nil, or_false] at hx
    rcases hx with rfl | rfl | rfl <;> exact isContinuation_ofNat (by omega) (by omega)

/-! ### Offsets between characters -/

@[simp] theorem encode_nil : encode [] = [] := rfl

@[simp] theorem encode_cons (c : Char) (cs : List Char) :
    encode (c :: cs) = String.utf8EncodeChar c ++ encode cs := rfl

@[simp] theorem encode_append (cs ds : List Char) : encode (cs ++ ds) = encode cs ++ encode ds :=
  List.flatMap_append

namespace IsBoundary

theorem zero : IsBoundary cs 0 := ⟨[], cs, rfl, rfl⟩

theorem length : IsBoundary cs (encode cs).length := ⟨cs, [], (List.append_nil cs).symm, rfl⟩

theorem le (h : IsBoundary cs n) : n ≤ (encode cs).length := by
  obtain ⟨before, after, rfl, rfl⟩ := h
  rw [encode_append, List.length_append]
  exact Nat.le_add_right _ _

theorem cons (c : Char) (h : IsBoundary cs n) : IsBoundary (c :: cs) (c.utf8Size + n) := by
  obtain ⟨before, after, rfl, rfl⟩ := h
  refine ⟨c :: before, after, rfl, ?_⟩
  rw [encode_cons, List.length_append, length_encodeChar]

/-- The character at an offset that is not the end. -/
theorem next (h : IsBoundary cs n) (hn : n < (encode cs).length) :
    ∃ c tail, (encode cs).drop n = String.utf8EncodeChar c ++ tail ∧
      IsBoundary cs (n + c.utf8Size) := by
  obtain ⟨before, after, rfl, rfl⟩ := h
  cases after with
  | nil =>
    rw [List.append_nil] at hn
    exact absurd hn (Nat.lt_irrefl _)
  | cons c after =>
    refine ⟨c, encode after, ?_, before ++ [c], after, by simp, ?_⟩
    · rw [encode_append, List.drop_left, encode_cons]
    · rw [encode_append, List.length_append, encode_cons, encode_nil, List.append_nil,
        length_encodeChar]

end IsBoundary

/-- Within the text, the offsets inside a character are those of a continuation byte. -/
theorem isBoundary_iff (hn : n < (encode cs).length) :
    IsBoundary cs n ↔ isContinuation (encode cs)[n] = false := by
  constructor
  · intro h
    obtain ⟨c, tail, hdrop, -⟩ := h.next hn
    obtain ⟨b, rest, hb, -, hhead, -⟩ := encodeChar_shape c
    rw [List.drop_eq_getElem_cons hn, hb, List.cons_append] at hdrop
    rw [(List.cons.inj hdrop).1]
    exact hhead
  · intro hhead
    induction cs generalizing n with
    | nil => cases hn
    | cons c cs ih =>
      simp only [encode_cons] at hn hhead
      by_cases hlt : n < (String.utf8EncodeChar c).length
      · obtain ⟨b, rest, hb, -, -, -, hrest⟩ := encodeChar_shape c
        rw [List.getElem_append_left hlt] at hhead
        simp only [hb] at hlt hhead
        cases n with
        | zero => exact .zero
        | succ k =>
          rw [List.getElem_cons_succ] at hhead
          have hcont := hrest _ (List.getElem_mem (Nat.lt_of_succ_lt_succ hlt))
          rw [hhead] at hcont
          cases hcont
      · rw [Nat.not_lt] at hlt
        rw [List.getElem_append_right hlt] at hhead
        rw [List.length_append] at hn
        have hrest := ih (n := n - (String.utf8EncodeChar c).length) (by omega) hhead
        have hsum := hrest.cons c
        rw [length_encodeChar] at hlt hsum
        rwa [Nat.add_sub_cancel' hlt] at hsum

/-- An offset where a byte below `0x80` stands, and the offset behind it. -/
theorem IsBoundary.of_ascii (hn : n < (encode cs).length) (hb : (encode cs)[n] < 0x80) :
    IsBoundary cs n ∧ IsBoundary cs (n + 1) := by
  have hhead : isContinuation (encode cs)[n] = false := by
    rw [isContinuation, Bool.and_eq_false_iff, decide_eq_false_iff_not]
    exact .inl (UInt8.not_le.mpr hb)
  have h := (isBoundary_iff hn).mpr hhead
  refine ⟨h, ?_⟩
  obtain ⟨c, tail, hdrop, hnext⟩ := h.next hn
  obtain ⟨b, rest, hc, -, -, hsize, -⟩ := encodeChar_shape c
  rw [List.drop_eq_getElem_cons hn, hc, List.cons_append] at hdrop
  rw [(List.cons.inj hdrop).1] at hb
  rwa [hsize.mp hb] at hnext

end Utf8

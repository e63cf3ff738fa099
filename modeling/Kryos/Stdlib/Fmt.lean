import Kryos.Lib.Replace
import Kryos.Lib.VariantLoop
import Kryos.Stdlib.Str

/-!
# `format` of `std.fmt`

The placeholders are replaced one number after the other, each by a pass over the text that the
passes before it left. A pass counts the occurrences first, and then fills a buffer of the size that
follows from their number.

## Main results

* `replaceAll_eq` — a pass never writes outside of its buffer, fills it, and replaces the pattern
-/

namespace Kryos.Stdlib.Fmt

open Str Replace VariantLoop

/-- The inner loop of both passes: the bytes of `old` against those of `s` from `i` on. -/
def matchedAt (s old : Text) (i : ℕ) : Bool :=
  if i + old.length > s.length then false
  else (List.range old.length).all fun j => s[i + j]? == old[j]?

def countStep (s old : Text) : ℕ × ℕ → Option ((ℕ × ℕ) ⊕ ℕ)
  | (i, count) =>
    some (if i < s.length then
      if matchedAt s old i then .inl (i + old.length, count + 1) else .inl (i + 1, count)
    else .inr count)

/-- `ptr_set_byte`, which must stay in the buffer -/
def setByte (buf : Text) (w : ℕ) (b : UInt8) : Option Text :=
  if w < buf.length then some (buf.set w b) else none

def writeText (buf : Text) (w : ℕ) : Text → Option (Text × ℕ)
  | [] => some (buf, w)
  | b :: new => do
    let buf ← setByte buf w b
    writeText buf (w + 1) new

def fillStep (s old new : Text) : ℕ × ℕ × Text → Option ((ℕ × ℕ × Text) ⊕ Text)
  | (i, w, buf) =>
    if h : i < s.length then
      if matchedAt s old i then
        (writeText buf w new).map fun (buf, w) => .inl (i + old.length, w, buf)
      else (setByte buf w s[i]).map fun buf => .inl (i + 1, w + 1, buf)
    else some (.inr buf)

/-- `_replace_all`, which stops with a byte written outside of the buffer -/
def replaceAll (s old new : Text) : Option Text :=
  if old.length = 0 then some s
  else do
    let count ← iterate (countStep s old) (s.length + 1) (0, 0)
    let outLen : ℤ := s.length + count * ((new.length : ℤ) - old.length)
    if outLen = 0 then some []
    else iterate (fillStep s old new) (s.length + 1) (0, 0, List.replicate outLen.toNat 0)

/-- `"\x7b" + to_string(n) + "\x7d"` -/
def placeholder (n : ℕ) : Text := '\x7b'.toUInt8 :: (Decimal.digits n ++ ['\x7d'.toUInt8])

/-- The text after the rounds of the loop for the numbers below the given one. -/
def rounds (template : Text) (args : List Text) : ℕ → Option Text
  | 0 => some template
  | i + 1 => do
    let result ← rounds template args i
    let arg ← args[i]?
    replaceAll result (placeholder i) arg

def format (template : Text) (args : List Text) : Option Text := rounds template args args.length

/-! ## One pass -/

variable {s old new buf : Text} {i w : ℕ}

theorem matchedAt_iff (hi : i ≤ s.length) : matchedAt s old i = true ↔ old <+: s.drop i := by
  rw [matchedAt]
  by_cases hlen : i + old.length > s.length
  · rw [if_pos hlen]
    refine iff_of_false Bool.false_ne_true fun h => ?_
    have := h.length_le
    rw [List.length_drop] at this
    omega
  · rw [if_neg hlen, List.all_eq_true, List.prefix_iff_getElem?]
    constructor
    · intro h j hj
      have heq := beq_iff_eq.mp (h j (List.mem_range.mpr hj))
      rw [List.getElem?_drop, heq, List.getElem?_eq_getElem hj]
    · intro h j hj
      have hj' := List.mem_range.mp hj
      rw [beq_iff_eq, ← List.getElem?_drop, h j hj', List.getElem?_eq_getElem hj']

/-- The count of the first pass. -/
theorem count_eq (hold : old ≠ []) :
    iterate (countStep s old) (s.length + 1) (0, 0) = some (replacements old s) := by
  obtain ⟨count, heq, rfl⟩ : ∃ count, iterate (countStep s old) (s.length + 1) (0, 0) = some count ∧
      count = replacements old s := by
    refine iterate_spec (I := fun t => t.2 + replacements old (s.drop t.1) = replacements old s)
      (fun t => s.length - t.1) (fun t ht => ?_) ?_ (by simp)
    · obtain ⟨i, count⟩ := t
      dsimp only at ht ⊢
      have hpos := List.length_pos_iff.mpr hold
      rw [countStep]
      by_cases hi : i < s.length
      · rw [if_pos hi]
        by_cases hfront : old <+: s.drop i
        · rw [if_pos ((matchedAt_iff hi.le).mpr hfront)]
          rw [replacements_drop_of_front hold hi hfront] at ht
          exact .inl ⟨_, rfl, by dsimp only; omega, by dsimp only; omega⟩
        · rw [if_neg (mt (matchedAt_iff hi.le).mp hfront)]
          rw [replacements_drop_of_not_front hi hfront] at ht
          exact .inl ⟨_, rfl, ht, by dsimp only; omega⟩
      · rw [List.drop_eq_nil_of_le (not_lt.mp hi), replacements_nil] at ht
        exact .inr ⟨count, if_neg hi ▸ rfl, by omega⟩
    · simp
  exact heq

theorem setByte_eq (b : UInt8) (h : w < buf.length) :
    ∃ buf', setByte buf w b = some buf' ∧ buf'.length = buf.length ∧
      buf'.take (w + 1) = buf.take w ++ [b] := by
  refine ⟨buf.set w b, if_pos h, List.length_set, ?_⟩
  have hlen : w < (buf.set w b).length := by rwa [List.length_set]
  rw [List.take_succ_eq_append_getElem hlen, List.getElem_set_self, List.take_set_of_le le_rfl]

theorem writeText_eq (h : w + new.length ≤ buf.length) :
    ∃ buf', writeText buf w new = some (buf', w + new.length) ∧ buf'.length = buf.length ∧
      buf'.take (w + new.length) = buf.take w ++ new := by
  induction new generalizing buf w with
  | nil => exact ⟨buf, rfl, rfl, by simp⟩
  | cons b new ih =>
    rw [List.length_cons] at h
    obtain ⟨buf₁, hset, hlen₁, htake₁⟩ := setByte_eq b (show w < buf.length by omega)
    have hroom : w + 1 + new.length ≤ buf₁.length := by omega
    obtain ⟨buf₂, hwrite, hlen₂, htake₂⟩ := ih hroom
    have hw : w + 1 + new.length = w + (b :: new).length := by
      rw [List.length_cons]
      omega
    rw [hw] at hwrite htake₂
    refine ⟨buf₂, ?_, hlen₂.trans hlen₁, ?_⟩
    · rw [writeText, hset]
      exact hwrite
    · rw [htake₂, htake₁, List.append_assoc, List.singleton_append]

/-- What the second pass has written, with what it still has to write, is the result. -/
theorem fill_eq (hold : old ≠ []) (hbuf : buf.length = (replaced old new s).length) :
    iterate (fillStep s old new) (s.length + 1) (0, 0, buf) = some (replaced old new s) := by
  obtain ⟨r, heq, rfl⟩ : ∃ r, iterate (fillStep s old new) (s.length + 1) (0, 0, buf) = some r ∧
      r = replaced old new s := by
    refine iterate_spec
      (I := fun t => t.2.2.length = (replaced old new s).length ∧ t.2.1 ≤ t.2.2.length ∧
        t.2.2.take t.2.1 ++ replaced old new (s.drop t.1) = replaced old new s)
      (fun t => s.length - t.1) (fun t ht => ?_) ?_ (by simp)
    · obtain ⟨i, w, buf⟩ := t
      obtain ⟨hlen, hw, hdone⟩ := ht
      dsimp only at hlen hw hdone ⊢
      have hpos := List.length_pos_iff.mpr hold
      have hroom := congrArg List.length hdone
      rw [List.length_append, List.length_take_of_le hw, ← hlen] at hroom
      rw [fillStep]
      by_cases hi : i < s.length
      · rw [dif_pos hi]
        by_cases hfront : old <+: s.drop i
        · rw [if_pos ((matchedAt_iff hi.le).mpr hfront)]
          rw [replaced_drop_of_front hold hi hfront] at hdone hroom
          rw [List.length_append] at hroom
          have hfit : w + new.length ≤ buf.length := by omega
          obtain ⟨buf', heq, hlen', htake⟩ := writeText_eq hfit
          refine .inl ⟨(i + old.length, w + new.length, buf'), by rw [heq]; rfl, ⟨?_, ?_, ?_⟩, ?_⟩
          · exact hlen'.trans hlen
          · dsimp only
            omega
          · dsimp only
            rw [htake, List.append_assoc, hdone]
          · dsimp only
            omega
        · rw [if_neg (mt (matchedAt_iff hi.le).mp hfront)]
          rw [replaced_drop_of_not_front hi hfront] at hdone hroom
          rw [List.length_cons] at hroom
          have hfit : w < buf.length := by omega
          obtain ⟨buf', heq, hlen', htake⟩ := setByte_eq s[i] hfit
          refine .inl ⟨(i + 1, w + 1, buf'), by rw [heq]; rfl, ⟨?_, ?_, ?_⟩, ?_⟩
          · exact hlen'.trans hlen
          · dsimp only
            omega
          · dsimp only
            rw [htake, List.append_assoc, List.singleton_append, hdone]
          · dsimp only
            omega
      · rw [List.drop_eq_nil_of_le (not_lt.mp hi), replaced_nil] at hdone hroom
        rw [List.append_nil] at hdone
        rw [List.length_nil] at hroom
        refine .inr ⟨buf, dif_neg hi, ?_⟩
        rw [← hdone, List.take_of_length_le (by omega)]
    · exact ⟨hbuf, Nat.zero_le _, rfl⟩
  exact heq

/-- The size that follows from the count is that of the result. -/
theorem replaceAll_eq (hold : old ≠ []) : replaceAll s old new = some (replaced old new s) := by
  have hlen := length_replaced (a := new) (s := s) hold
  rw [replaceAll, if_neg (mt List.length_eq_zero_iff.mp hold), count_eq hold]
  show (if _ then _ else _) = _
  split_ifs with hzero
  · rw [hzero, Nat.cast_eq_zero, List.length_eq_zero_iff] at hlen
    rw [hlen]
  · refine fill_eq hold ?_
    rw [List.length_replicate, ← hlen, Int.toNat_natCast]

end Kryos.Stdlib.Fmt

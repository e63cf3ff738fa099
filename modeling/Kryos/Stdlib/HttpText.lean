import Kryos.Lib.Cut
import Kryos.Stdlib.Str
import Mathlib.Tactic.IntervalCases

/-!
# Text helpers of the HTTP library

`std.http` searches, cuts and rewrites texts with helpers of its own, over byte positions.

## Main results

* `Http.find_eq` — `_find` returns the position of the first occurrence
* `Http.split_eq` — `_split` returns the pieces between the occurrences
* `Http.parsePort_eq` — `_parse_port` never panics, and takes one to five digits
-/

namespace Kryos.Stdlib.Http

open Segments Str

/-! ## Helpers -/

/-- The inner loop of `_find` and `_split`, with `left` more bytes of the needle to compare. -/
def matched (haystack needle : Text) (i : ℕ) : ℕ → ℕ → Except Failure Bool
  | 0, _ => .ok true
  | left + 1, j => do
    let a ← charAt haystack (i + j)
    let b ← charAt needle j
    if a ≠ b then .ok false else matched haystack needle i left (j + 1)

/-- `while i <= limit`, with `left` more positions to try -/
def findFrom (haystack needle : Text) : ℕ → ℕ → Except Failure (Option ℕ)
  | 0, _ => .ok none
  | left + 1, i => do
    if ← matched haystack needle i needle.length 0 then .ok (some i)
    else findFrom haystack needle left (i + 1)

/-- `_find`, with `none` for `-1` -/
def find (haystack needle : Text) : Except Failure (Option ℕ) :=
  if needle.length = 0 then .ok (some 0)
  else if needle.length > haystack.length then .ok none
  else findFrom haystack needle (haystack.length - needle.length + 1) 0

/-- `while i <= slen - dlen` -/
def splitFrom (s delimiter : Text) : ℕ → ℕ → ℕ → List Text → Except Failure (List Text)
  | 0, _, _, _ => .error .outOfFuel
  | fuel + 1, start, i, result => do
    if i + delimiter.length ≤ s.length then
      if ← matched s delimiter i delimiter.length 0 then
        let piece ← substring s start i
        splitFrom s delimiter fuel (i + delimiter.length) (i + delimiter.length) (result ++ [piece])
      else splitFrom s delimiter fuel start (i + 1) result
    else
      let piece ← substring s start s.length
      .ok (result ++ [piece])

def split (s delimiter : Text) : Except Failure (List Text) :=
  if delimiter.length = 0 then .ok [s]
  else splitFrom s delimiter (s.length + 1) 0 0 []

/-- The body of the loop in `_to_lower`, for the one byte of `s[i]`. -/
def lowerByte (b : UInt8) : UInt8 :=
  if 65 ≤ b.toNat ∧ b.toNat ≤ 90 then b + 32 else b

/-- `while i < slen` -/
def toLowerFrom (s : Text) : ℕ → ℕ → Text → Except Failure Text
  | 0, _, result => .ok result
  | left + 1, i, result => do
    let ch ← charAt s i
    toLowerFrom s left (i + 1) (result ++ ch.map lowerByte)

def toLower (s : Text) : Except Failure Text := toLowerFrom s s.length 0 []

/-- `while i < n` -/
def stripCrlfFrom (s : Text) : ℕ → ℕ → Text → Except Failure Text
  | 0, _, out => .ok out
  | left + 1, i, out => do
    let ch ← substring s i (i + 1)
    stripCrlfFrom s left (i + 1)
      (if ch ≠ ['\r'.toUInt8] ∧ ch ≠ ['\n'.toUInt8] then out ++ ch else out)

def stripCrlf (s : Text) : Except Failure Text := stripCrlfFrom s s.length 0 []

/-- The loop of `_parse_port` over the characters, with `left` more to look at. -/
def allDigits (s : Text) : ℕ → ℕ → Except Failure Bool
  | 0, _ => .ok true
  | left + 1, j => do
    let ch ← substring s j (j + 1)
    match ← find (ascii ['0', '1', '2', '3', '4', '5', '6', '7', '8', '9']) ch with
    | none => .ok false
    | some _ => allDigits s left (j + 1)

/-- `_parse_port`, with `none` for `-1` -/
def parsePort (s : Text) : Except Failure (Option ℤ) :=
  if s.length = 0 then .ok none
  else if s.length > 5 then .ok none
  else do
    if ← allDigits s s.length 0 then return some (← parseInt s)
    else .ok none

/-! ## What they return -/

variable {s haystack needle : Text} {i j n : ℕ}

theorem matched_eq (i : ℕ) : ∀ left j : ℕ, i + j + left ≤ haystack.length →
    j + left = needle.length →
    matched haystack needle i left j = .ok (decide (needle.drop j <+: haystack.drop (i + j)))
  | 0, j, _, hj => by
    rw [Nat.add_zero] at hj
    rw [matched, hj, List.drop_length, decide_eq_true List.nil_prefix]
  | left + 1, j, hi, hj => by
    have hlt : i + j < haystack.length := by omega
    have hjlt : j < needle.length := by omega
    have ih := matched_eq i left (j + 1) (by omega) (by omega)
    have hcons : needle.drop j <+: haystack.drop (i + j) ↔
        needle[j] = haystack[i + j] ∧ needle.drop (j + 1) <+: haystack.drop (i + (j + 1)) := by
      rw [List.drop_eq_getElem_cons hlt, List.drop_eq_getElem_cons hjlt, List.cons_prefix_cons,
        Nat.add_assoc]
    rw [matched, charAt_ok hlt, charAt_ok hjlt]
    show (if [haystack[i + j]] ≠ [needle[j]] then .ok false
      else matched haystack needle i left (j + 1)) = _
    by_cases heq : needle[j] = haystack[i + j]
    · rw [if_neg (by rw [heq]; exact not_not_intro rfl), ih]
      exact congrArg _ (decide_eq_decide.mpr (hcons.trans (and_iff_right heq)).symm)
    · rw [if_pos (by simpa using Ne.symm heq), decide_eq_false fun h => heq (hcons.mp h).1]

theorem matched_all (hi : i + needle.length ≤ haystack.length) :
    matched haystack needle i needle.length 0 = .ok (decide (needle <+: haystack.drop i)) :=
  matched_eq i needle.length 0 hi (Nat.zero_add _)

theorem findFrom_eq (hpos : 0 < needle.length) : ∀ left i : ℕ,
    i + left + needle.length = haystack.length + 1 →
    findFrom haystack needle left i =
      .ok ((Cut.cut needle (haystack.drop i)).map fun parts => i + parts.1.length)
  | 0, i, hlen => by
    rw [findFrom, Cut.cut_of_length_lt (by rw [List.length_drop]; omega)]
    rfl
  | left + 1, i, hlen => by
    have hlt : i < haystack.length := by omega
    have ih := findFrom_eq hpos left (i + 1) (by omega)
    rw [findFrom, matched_all (by omega)]
    by_cases hocc : needle <+: haystack.drop i
    · rw [decide_eq_true hocc, Cut.cut_of_front hocc]
      rfl
    · rw [decide_eq_false hocc]
      rw [List.drop_eq_getElem_cons hlt] at hocc ⊢
      rw [Cut.cut_cons_of_not_front hocc, Option.map_map]
      refine (ih.trans (congrArg _ (congrArg (Option.map · _) ?_)))
      funext parts
      simp only [Function.comp_apply, List.length_cons]
      omega

/-- `_find` returns the position of the first occurrence. -/
theorem find_eq (hne : needle ≠ []) :
    find haystack needle = .ok ((Cut.cut needle haystack).map fun parts => parts.1.length) := by
  have hpos := List.length_pos_iff.mpr hne
  rw [find, if_neg hpos.ne']
  split
  · rename_i hlt
    rw [Cut.cut_of_length_lt hlt, Option.map_none]
  · rw [findFrom_eq hpos _ 0 (by omega), List.drop_zero]
    simp only [Nat.zero_add]

theorem splitFrom_eq {delimiter : Text} (hne : delimiter ≠ []) :
    ∀ fuel start i result, start ≤ i → i ≤ s.length → s.length < i + fuel →
    splitFrom s delimiter fuel start i result =
      .ok (result ++ (Cut.cut delimiter (s.drop i)).elim [s.drop start] fun parts =>
        slice s start (i + parts.1.length) :: Cut.pieces delimiter parts.2)
  | 0, _, _, _, _, hi, hfuel => by omega
  | fuel + 1, start, i, result, hstart, hi, hfuel => by
    have hpos := List.length_pos_iff.mpr hne
    rw [splitFrom]
    by_cases hlen : i + delimiter.length ≤ s.length
    · rw [if_pos hlen, matched_all hlen]
      by_cases hocc : delimiter <+: s.drop i
      · have ih := splitFrom_eq hne fuel (i + delimiter.length) (i + delimiter.length)
          (result ++ [slice s start i]) (Nat.le_refl _) hlen (by omega)
        rw [decide_eq_true hocc, substring_ok hstart hi, Cut.cut_of_front hocc, List.drop_drop]
        refine ih.trans (congrArg _ ?_)
        rw [List.append_assoc, Option.elim_some, List.length_nil, Nat.add_zero,
          List.singleton_append]
        refine congrArg (result ++ slice s start i :: ·) ?_
        cases hcut : Cut.cut delimiter (s.drop (i + delimiter.length)) with
        | none => rw [Cut.pieces_of_cut_eq_none hcut, Option.elim_none]
        | some parts =>
          rw [Cut.pieces_of_cut hne hcut, Option.elim_some, slice_of_drop_eq (Cut.eq_of_cut hcut)]
      · have hlt : i < s.length := by omega
        have ih := splitFrom_eq hne fuel start (i + 1) result (by omega) hlt (by omega)
        rw [decide_eq_false hocc]
        refine ih.trans (congrArg _ (congrArg (result ++ ·) ?_))
        rw [List.drop_eq_getElem_cons hlt] at hocc ⊢
        rw [Cut.cut_cons_of_not_front hocc]
        cases Cut.cut delimiter (s.drop (i + 1)) with
        | none => rfl
        | some parts =>
          simp only [Option.map_some, Option.elim_some, List.length_cons, Nat.add_assoc,
            Nat.add_comm 1]
    · have hshort : (s.drop i).length < delimiter.length := by
        rw [List.length_drop]
        omega
      rw [if_neg hlen, substring_from (hstart.trans hi), Cut.cut_of_length_lt hshort]
      rfl

/-- `_split` returns the pieces between the occurrences. -/
theorem split_eq {delimiter : Text} (hne : delimiter ≠ []) (s : Text) :
    split s delimiter = .ok (Cut.pieces delimiter s) := by
  rw [split, if_neg (List.length_pos_iff.mpr hne).ne',
    splitFrom_eq hne _ 0 0 [] (Nat.le_refl 0) (Nat.zero_le _) (by omega), List.drop_zero,
    List.nil_append]
  refine congrArg _ ?_
  cases hcut : Cut.cut delimiter s with
  | none => rw [Cut.pieces_of_cut_eq_none hcut, Option.elim_none]
  | some parts =>
    rw [Cut.pieces_of_cut hne hcut, Option.elim_some,
      slice_of_drop_eq (Cut.eq_of_cut (by rwa [List.drop_zero]))]

theorem toLowerFrom_eq : ∀ left i result, i + left = s.length →
    toLowerFrom s left i result = .ok (result ++ (s.drop i).map lowerByte)
  | 0, i, result, hlen => by
    rw [toLowerFrom, List.drop_of_length_le (by omega), List.map_nil, List.append_nil]
  | left + 1, i, result, hlen => by
    have hlt : i < s.length := by omega
    rw [toLowerFrom, charAt_ok hlt, List.drop_eq_getElem_cons hlt, List.map_cons]
    refine (toLowerFrom_eq left (i + 1) _ (by omega)).trans ?_
    rw [List.append_assoc, List.map_singleton, List.singleton_append]

theorem toLower_eq (s : Text) : toLower s = .ok (s.map lowerByte) := by
  rw [toLower, toLowerFrom_eq _ _ _ (Nat.zero_add _), List.drop_zero, List.nil_append]

def isCrlf (b : UInt8) : Bool := b = '\r'.toUInt8 ∨ b = '\n'.toUInt8

theorem stripCrlfFrom_eq : ∀ left i out, i + left = s.length →
    stripCrlfFrom s left i out = .ok (out ++ (s.drop i).filter fun b => !isCrlf b)
  | 0, i, out, hlen => by
    rw [stripCrlfFrom, List.drop_of_length_le (by omega), List.filter_nil, List.append_nil]
  | left + 1, i, out, hlen => by
    have hlt : i < s.length := by omega
    have hsub : substring s i (i + 1) = .ok [s[i]] := charAt_ok hlt
    have hch : ([s[i]] ≠ ['\r'.toUInt8] ∧ [s[i]] ≠ ['\n'.toUInt8]) ↔ isCrlf s[i] = false := by
      simp [isCrlf]
    rw [stripCrlfFrom, hsub, List.drop_eq_getElem_cons hlt]
    refine (stripCrlfFrom_eq left (i + 1) _ (by omega)).trans ?_
    by_cases hb : isCrlf s[i] = false
    · rw [if_pos (hch.mpr hb), List.filter_cons_of_pos (by rw [hb]; rfl), List.append_assoc,
        List.singleton_append]
    · rw [if_neg (mt hch.mp hb), List.filter_cons_of_neg (by simpa using hb)]

theorem stripCrlf_eq (s : Text) : stripCrlf s = .ok (s.filter fun b => !isCrlf b) := by
  rw [stripCrlf, stripCrlfFrom_eq _ _ _ (Nat.zero_add _), List.drop_zero, List.nil_append]

/-! ## Ports -/

/-- The number that a text states as a port: one to five digits. -/
def statedPort (s : Text) : Option ℕ :=
  if s ≠ [] ∧ s.length ≤ 5 ∧ s.all Decimal.isDigit = true then some (Decimal.value s) else none

theorem mem_digits_iff {b : UInt8} :
    b ∈ ascii ['0', '1', '2', '3', '4', '5', '6', '7', '8', '9'] ↔ Decimal.isDigit b = true := by
  rw [Decimal.isDigit, Bool.and_eq_true, decide_eq_true_eq, decide_eq_true_eq,
    UInt8.le_iff_toNat_le, UInt8.le_iff_toNat_le]
  constructor
  · intro h
    simp only [ascii, List.map_cons, List.map_nil, List.mem_cons, List.not_mem_nil, or_false] at h
    rcases h with rfl | rfl | rfl | rfl | rfl | rfl | rfl | rfl | rfl | rfl <;> decide
  · rintro ⟨hlow, hhigh⟩
    have hb : UInt8.ofNat b.toNat = b := UInt8.ofNat_toNat
    rw [← hb]
    generalize b.toNat = n at hlow hhigh
    change 48 ≤ n at hlow
    change n ≤ 57 at hhigh
    interval_cases n <;> decide

theorem allDigits_eq : ∀ left j, j + left = s.length →
    allDigits s left j = .ok ((s.drop j).all Decimal.isDigit)
  | 0, j, hlen => by
    rw [allDigits, List.drop_of_length_le (by omega), List.all_nil]
  | left + 1, j, hlen => by
    have hlt : j < s.length := by omega
    have hsub : substring s j (j + 1) = .ok [s[j]] := charAt_ok hlt
    have ih := allDigits_eq left (j + 1) (by omega)
    rw [allDigits, hsub, List.drop_eq_getElem_cons hlt, List.all_cons]
    show (do match ← find (ascii ['0', '1', '2', '3', '4', '5', '6', '7', '8', '9']) [s[j]] with
      | none => .ok false
      | some _ => allDigits s left (j + 1)) = _
    rw [find_eq (List.cons_ne_nil _ _)]
    by_cases hb : Decimal.isDigit s[j] = true
    · obtain ⟨a, b, hcut⟩ : ∃ a b, Cut.cut [s[j]]
          (ascii ['0', '1', '2', '3', '4', '5', '6', '7', '8', '9']) = some (a, b) := by
        obtain ⟨a, b, heq, ha⟩ := List.eq_append_cons_of_mem (mem_digits_iff.mpr hb)
        exact ⟨a, b, heq ▸ Cut.cut_singleton ha b⟩
      rw [hcut, hb, Bool.true_and]
      exact ih
    · rw [Cut.cut_of_not_mem (mt mem_digits_iff.mp hb), Bool.eq_false_iff.mpr hb, Bool.false_and]
      rfl

theorem parseInt_of_digits (hne : s ≠ []) (hds : s.all Decimal.isDigit = true)
    (hlen : s.length ≤ 5) : parseInt s = .ok (Decimal.value s : ℤ) := by
  have hall : ∀ b ∈ s, Decimal.isDigit b = true := List.all_eq_true.mp hds
  have hlt : Decimal.value s < 10 ^ 5 :=
    (Decimal.value_lt hall).trans_le (Nat.pow_le_pow_right (by decide) hlen)
  have hany : ¬(s = [] ∨ (s.any fun b => !Decimal.isDigit b) = true) := by
    rw [not_or, List.any_eq_true]
    refine ⟨hne, ?_⟩
    rintro ⟨b, hb, hnot⟩
    rw [hall b hb] at hnot
    cases hnot
  have hrange : ¬((1 : ℤ) * Decimal.value s < -2 ^ 63 ∨ 2 ^ 63 ≤ (1 : ℤ) * Decimal.value s) := by
    omega
  cases s with
  | nil => exact absurd rfl hne
  | cons b ds =>
    have hb := hall b List.mem_cons_self
    have hminus : b ≠ '-'.toUInt8 := by
      rintro rfl
      exact absurd hb (by decide)
    have hplus : b ≠ '+'.toUInt8 := by
      rintro rfl
      exact absurd hb (by decide)
    simp only [parseInt, if_neg hminus, if_neg hplus]
    rw [if_neg hany, if_neg hrange, one_mul]

/-- `_parse_port` never panics, and takes one to five digits. -/
theorem parsePort_eq (s : Text) :
    parsePort s = .ok ((statedPort s).map fun n : ℕ => (n : ℤ)) := by
  rw [parsePort, statedPort]
  by_cases hne : s = []
  · rw [if_pos (List.length_eq_zero_iff.mpr hne), if_neg fun h => h.1 hne]
    rfl
  · rw [if_neg (mt List.length_eq_zero_iff.mp hne)]
    by_cases hlen : s.length ≤ 5
    · rw [if_neg (Nat.not_lt.mpr hlen), allDigits_eq _ _ (Nat.zero_add _), List.drop_zero]
      by_cases hds : s.all Decimal.isDigit = true
      · rw [if_pos ⟨hne, hlen, hds⟩, hds, parseInt_of_digits hne hds hlen]
        rfl
      · rw [if_neg fun h => hds h.2.2, Bool.eq_false_iff.mpr hds]
        rfl
    · rw [if_pos (Nat.lt_of_not_le hlen), if_neg fun h => hlen h.2.1]
      rfl

end Kryos.Stdlib.Http

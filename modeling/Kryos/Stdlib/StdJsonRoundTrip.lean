import Kryos.Stdlib.StdJson
import Mathlib.Tactic.IntervalCases

/-!
# Printed JSON, parsed

The compact and the indenting printer differ in whitespace only: both write a spelling of the value,
as the grammar of JSON has it. The parser reads every spelling of a value back, as long as the value
is nested at most 1000 deep and holds no floats.

## Main results

* `StdJson.Spells` — the texts that stand for a value
* `StdJson.parseStringFrom_escape` — a string is read back, with the runs between its escapes
* `StdJson.parseValue_of_spells` — the parser reads every spelling
* `StdJson.round_trips` — both printers are inverted, and what is set is what is found
-/

namespace Kryos.Stdlib.StdJson

open Str Segments

variable {F : Type} {p : Parser} {a t w rest : Text} {b : UInt8}

/-! ## What is left of the input -/

def Parser.remaining (p : Parser) : Text := p.input.drop p.pos

def Parser.skip (p : Parser) (n : ℕ) : Parser := { p with pos := p.pos + n }

theorem advance_eq (p : Parser) : advance p = p.skip 1 := rfl

theorem skip_skip (p : Parser) (m n : ℕ) : (p.skip m).skip n = p.skip (m + n) := by
  rw [Parser.skip, Parser.skip, Parser.skip, Nat.add_assoc]

theorem rest_skip (h : p.remaining = w ++ rest) : (p.skip w.length).remaining = rest := by
  rw [Parser.remaining] at h
  rw [Parser.remaining, Parser.skip, ← List.drop_drop, h, List.drop_left]

theorem rest_advance (h : p.remaining = b :: rest) : (advance p).remaining = rest :=
  rest_skip (w := [b]) h

theorem length_rest (p : Parser) : p.remaining.length = p.input.length - p.pos := List.length_drop

theorem getElem?_pos (p : Parser) : p.input[p.pos]? = p.remaining.head? := by
  rw [Parser.remaining, List.head?_drop]

theorem peek_cons (h : p.remaining = b :: rest) : peek p = [b] := by
  rw [peek, getElem?_pos, h]
  rfl

theorem currentChar_cons (h : p.remaining = b :: rest) : currentChar p = .ok [b] := by
  rw [currentChar, getElem?_pos, h]
  rfl

theorem expectChar_cons (h : p.remaining = b :: rest) : expectChar p [b] = .ok (advance p) := by
  rw [expectChar, currentChar_cons h, ok_bind, if_neg (not_not_intro rfl)]

theorem expectChar_ascii {c : Char} (h : p.remaining = ascii [c] ++ rest) :
    expectChar p (ascii [c]) = .ok (advance p) :=
  expectChar_cons h

theorem expectAll_append : ∀ {bs : Text} {p : Parser}, p.remaining = bs ++ rest →
    expectAll bs p = .ok (p.skip bs.length)
  | [], p, _ => rfl
  | b :: bs, p, h => by
    rw [expectAll, expectChar_cons h, ok_bind, expectAll_append (rest_advance h), advance_eq,
      skip_skip, List.length_cons, Nat.add_comm]

theorem substring_rest (h : p.remaining = w ++ rest) (hw : w ≠ []) :
    substring p.input p.pos (p.pos + w.length) = .ok w := by
  have hlen := congrArg List.length h
  have hpos := List.length_pos_iff.mpr hw
  rw [length_rest, List.length_append] at hlen
  rw [substring_ok (by omega) (by omega)]
  exact congrArg _ (slice_of_drop_eq h)

/-! ## Whitespace -/

/-- Nothing but whitespace. -/
def Blank (a : Text) : Prop := ∀ b ∈ a, isWhitespace [b] = true

/-- The loop stops at the first character that is not meant. -/
theorem skipWhile_append {here : Text → Bool} (hnil : here [] = false) :
    ∀ {a : Text} {left : ℕ} {p : Parser}, p.remaining = a ++ t → (∀ b ∈ a, here [b] = true) →
    (∀ b ∈ t.head?, here [b] = false) → a.length ≤ left → skipWhile here left p = p.skip a.length
  | [], 0, p, _, _, _, _ => rfl
  | [], left + 1, p, h, _, ht, _ => by
    have hstop : here (peek p) = false := by
      rw [peek, getElem?_pos, h, List.nil_append]
      cases hhead : t.head? with
      | none => exact hnil
      | some b => exact ht b (by rw [hhead]; rfl)
    rw [skipWhile, hstop]
    rfl
  | b :: a, left + 1, p, h, ha, ht, hleft => by
    obtain ⟨hb, ha⟩ := List.forall_mem_cons.mp ha
    rw [skipWhile, peek_cons h, if_pos hb, skipWhile_append hnil (rest_advance h) ha ht
      (Nat.le_of_succ_le_succ hleft), advance_eq, skip_skip, List.length_cons, Nat.add_comm]

theorem skipWhitespace_append (h : p.remaining = a ++ t) (ha : Blank a)
    (ht : ∀ b ∈ t.head?, isWhitespace [b] = false) : skipWhitespace p = p.skip a.length := by
  have hlen := congrArg List.length h
  rw [length_rest, List.length_append] at hlen
  exact skipWhile_append rfl h ha ht (by omega)

/-! ## Strings -/

/-- The digits of an escaped control character. -/
def hexPair (n : ℕ) : Text :=
  ascii ['0', '0'] ++ (hexd.drop (n / 16)).take 1 ++ (hexd.drop (n % 16)).take 1

theorem hexToInt_hexPair {n : ℕ} (h : n < 32) : hexToInt (hexPair n) = .ok n := by
  interval_cases n <;> rfl

theorem length_hexPair {n : ℕ} (h : n < 32) : (hexPair n).length = 4 := by
  interval_cases n <;> rfl

theorem charFrom_of_lt {n : ℕ} (h : n < 32) : charFrom n = [UInt8.ofNat n] := by
  interval_cases n <;> rfl

theorem parseEscape_unicode (hb : b.toNat < 32)
    (h : p.remaining = 'u'.toUInt8 :: (hexPair b.toNat ++ rest)) :
    parseEscape p = .ok ([b], p.skip 4) := by
  have hlen := length_hexPair hb
  have hne : hexPair b.toNat ≠ [] := List.ne_nil_of_length_pos (by omega)
  have hhex := substring_rest (rest_advance h) hne
  rw [hlen] at hhex
  have hescape : unicodeEscape (advance p) = .ok (b.toNat, 0) := by
    rw [unicodeEscape, hhex, ok_bind, hexToInt_hexPair hb, ok_bind, if_neg fun h => by omega]
  have hchar : charFrom b.toNat = [b] := by rw [charFrom_of_lt hb, UInt8.ofNat_toNat]
  rw [parseEscape, currentChar_cons h, ok_bind]
  refine (congrArg (· >>= _) hescape).trans ?_
  rw [ok_bind]
  show Except.ok (charFrom b.toNat, _) = _
  rw [hchar]
  rfl

/-- A character is printed as itself, or behind a backslash so that it is read back. -/
theorem escapeChar_cases (b : UInt8) :
    (escapeChar [b] = [b] ∧ [b] ≠ quote ∧ [b] ≠ backslash ∧ 32 ≤ b.toNat) ∨
    ∃ e, e ≠ [] ∧ escapeChar [b] = backslash ++ e ∧ ∀ {p : Parser} {rest : Text},
      p.remaining = e ++ rest → parseEscape p = .ok ([b], p.skip (e.length - 1)) := by
  rw [escapeChar]
  by_cases hquote : [b] = quote
  · refine Or.inr ⟨quote, List.cons_ne_nil _ _, if_pos hquote, fun h => ?_⟩
    rw [parseEscape, currentChar_cons h, ok_bind, hquote]
    rfl
  rw [if_neg hquote]
  by_cases hback : [b] = backslash
  · refine Or.inr ⟨backslash, List.cons_ne_nil _ _, if_pos hback, fun h => ?_⟩
    rw [parseEscape, currentChar_cons h, ok_bind, hback]
    rfl
  rw [if_neg hback]
  by_cases hnewline : [b] = ascii ['\n']
  · refine Or.inr ⟨ascii ['n'], List.cons_ne_nil _ _, if_pos hnewline, fun h => ?_⟩
    rw [parseEscape, currentChar_cons h, ok_bind, hnewline]
    rfl
  rw [if_neg hnewline]
  by_cases hreturn : [b] = ascii ['\r']
  · refine Or.inr ⟨ascii ['r'], List.cons_ne_nil _ _, if_pos hreturn, fun h => ?_⟩
    rw [parseEscape, currentChar_cons h, ok_bind, hreturn]
    rfl
  rw [if_neg hreturn]
  by_cases htab : [b] = ascii ['\t']
  · refine Or.inr ⟨ascii ['t'], List.cons_ne_nil _ _, if_pos htab, fun h => ?_⟩
    rw [parseEscape, currentChar_cons h, ok_bind, htab]
    rfl
  have htwo (x y : Char) : ¬[b] = ascii [x, y] := fun h => by simp [ascii] at h
  rw [if_neg htab, if_neg (htwo _ _), if_neg (htwo _ _)]
  by_cases hcontrol : b.toNat < 32
  · refine Or.inr ⟨'u'.toUInt8 :: hexPair b.toNat, List.cons_ne_nil _ _, if_pos hcontrol,
      fun h => ?_⟩
    rw [parseEscape_unicode hcontrol h, List.length_cons, length_hexPair hcontrol]
  · exact Or.inl ⟨if_neg hcontrol, hquote, hback, Nat.le_of_not_lt hcontrol⟩

/-- What is flushed since the last escape. -/
theorem flushRun_eq {runStart : ℕ} {run : Text} (hrun : p.input.drop runStart = run ++ p.remaining)
    (hpos : runStart + run.length = p.pos) (hle : p.pos ≤ p.input.length) :
    flushRun p runStart = .ok run := by
  rw [flushRun]
  split
  · rw [substring_ok (by omega) hle, ← hpos, slice_of_drop_eq hrun]
  · have hnil : run = [] := List.length_eq_zero_iff.mp (by omega)
    rw [hnil]

/-- The escaped text of a string is read up to the quote: the run that is pending is followed by
the characters of the string. -/
theorem parseStringFrom_escape (start : ℕ) (rest : Text) :
    ∀ (s : Text) (fuel : ℕ) (p : Parser) (sb run : Text) (runStart : ℕ),
    p.remaining = s.flatMap (fun b => escapeChar [b]) ++ (quote ++ rest) →
    p.input.drop runStart = run ++ p.remaining → runStart + run.length = p.pos →
    (s.flatMap fun b => escapeChar [b]).length < fuel →
    parseStringFrom start fuel p sb runStart =
      .ok (sb ++ run ++ s, p.skip ((s.flatMap fun b => escapeChar [b]).length + 1))
  | _, 0, _, _, _, _, _, _, _, hfuel => absurd hfuel (Nat.not_lt_zero _)
  | [], fuel + 1, p, sb, run, runStart, h, hrun, hpos, _ => by
    have hle : p.pos ≤ p.input.length := by
      have hlen := congrArg List.length h
      rw [length_rest] at hlen
      simp [quote] at hlen
      omega
    rw [parseStringFrom, getElem?_pos, h]
    show (if ['"'.toUInt8] = quote then _ else _) = _
    rw [if_pos (by decide), flushRun_eq hrun hpos hle, ok_bind, List.append_nil]
    rfl
  | b :: s, fuel + 1, p, sb, run, runStart, h, hrun, hpos, hfuel => by
    rw [List.flatMap_cons, List.append_assoc] at h
    rw [List.flatMap_cons, List.length_append] at hfuel ⊢
    have hle : p.pos ≤ p.input.length := by
      have hlen := congrArg List.length h
      rw [length_rest, List.length_append, List.length_append, List.length_append] at hlen
      have hquote : quote.length = 1 := rfl
      omega
    rcases escapeChar_cases b with ⟨hplain, hquote, hback, hcode⟩ | ⟨e, he, hescape, hread⟩
    · -- the character stays in the run
      rw [hplain] at h hfuel ⊢
      have ih := parseStringFrom_escape start rest s fuel (advance p) sb (run ++ [b]) runStart
        (rest_advance h) (by
          show p.input.drop runStart = _
          rw [rest_advance h, hrun, h, List.append_assoc]
          rfl)
        (by rw [List.length_append, ← Nat.add_assoc, hpos]; rfl)
        (by rw [List.length_singleton] at hfuel; omega)
      have hcontrol : ¬charCode [b] < 32 := Nat.not_lt.mpr hcode
      rw [parseStringFrom, getElem?_pos, h]
      show (if [b] = quote then _ else if [b] = backslash then _ else
        if charCode [b] < 32 then _ else _) = _
      rw [if_neg hquote, if_neg hback, if_neg hcontrol, ih, advance_eq, skip_skip,
        List.length_singleton, List.append_assoc, List.append_assoc, List.append_assoc]
      refine congrArg (fun q => Except.ok (_, q)) (congrArg p.skip ?_)
      omega
    · -- the run is flushed, and the next one begins behind the escape
      rw [hescape] at h hfuel ⊢
      have hpos' := List.length_pos_iff.mpr he
      have hadv : (advance p).remaining = e ++ (s.flatMap (fun b => escapeChar [b]) ++
          (quote ++ rest)) := by
        rw [List.append_assoc] at h
        exact rest_advance h
      have hend : advance ((advance p).skip (e.length - 1)) = (advance p).skip e.length := by
        rw [advance_eq ((advance p).skip _), skip_skip, Nat.sub_add_cancel hpos']
      have ih := parseStringFrom_escape start rest s fuel ((advance p).skip e.length)
        (sb ++ run ++ [b]) [] ((advance p).skip e.length).pos (rest_skip hadv) rfl (Nat.add_zero _)
        (by rw [List.length_append] at hfuel; omega)
      rw [parseStringFrom, getElem?_pos, h]
      show (if backslash = quote then _ else if backslash = backslash then _ else _) = _
      rw [if_neg (by decide), if_pos rfl, flushRun_eq hrun hpos hle, ok_bind, hread hadv, ok_bind]
      show parseStringFrom start fuel (advance ((advance p).skip (e.length - 1))) _
        ((advance ((advance p).skip (e.length - 1))).pos) = _
      rw [hend, ih, advance_eq, skip_skip, skip_skip, List.append_nil, List.append_assoc _ [b]]
      refine congrArg (fun q => Except.ok (_, q)) (congrArg p.skip ?_)
      rw [List.length_append, show backslash.length = 1 from rfl]
      omega

theorem parseString_escape {s : Text} (h : p.remaining = escapeString s ++ rest) :
    parseString p = .ok (s, p.skip (escapeString s).length) := by
  rw [escapeString, List.append_assoc, List.append_assoc] at h
  have hrest : (advance p).remaining = s.flatMap (fun b => escapeChar [b]) ++ (quote ++ rest) :=
    rest_advance h
  have hlen := congrArg List.length hrest
  rw [length_rest, List.length_append, List.length_append] at hlen
  have hquote : quote.length = 1 := rfl
  have hloop := parseStringFrom_escape p.pos rest s ((advance p).input.length - (advance p).pos + 1)
    (advance p) [] [] (advance p).pos hrest rfl rfl (by omega)
  rw [parseString, quote, expectChar_cons h, ok_bind]
  refine hloop.trans ?_
  rw [advance_eq, skip_skip, escapeString, List.length_append, List.length_append, hquote,
    Nat.add_assoc]
  rfl

/-! ## Numbers -/

theorem ne_ascii {c : Char} (h : b ≠ c.toUInt8) : ¬[b] = ascii [c] := fun heq =>
  h (List.singleton_inj.mp heq)

/-- What would go on with a number. -/
def continues (ch : Text) : Bool :=
  isDigit ch || ch = ascii ['.'] || ch = ascii ['e'] || ch = ascii ['E']

/-- A number ends here. -/
def Stops (t : Text) : Prop := ∀ b ∈ t.head?, continues [b] = false

theorem continues_peek (ht : Stops p.remaining) : continues (peek p) = false := by
  rw [peek, getElem?_pos]
  cases hhead : p.remaining.head? with
  | none => rfl
  | some b => exact ht b hhead

theorem isDigit_singleton (b : UInt8) : isDigit [b] = Decimal.isDigit b := by
  rw [isDigit, Decimal.isDigit, charCode]
  exact congrArg₂ _ (decide_eq_decide.mpr (UInt8.le_iff_toNat_le (a := '0'.toUInt8)).symm)
    (decide_eq_decide.mpr (UInt8.le_iff_toNat_le (b := '9'.toUInt8)).symm)

theorem isDigit_of_continues {ch : Text} (h : continues ch = false) : isDigit ch = false := by
  rw [continues, Bool.or_eq_false_iff, Bool.or_eq_false_iff, Bool.or_eq_false_iff] at h
  exact h.1.1.1

theorem skipMinus_of_ne (h : p.remaining = b :: rest) (hb : b ≠ '-'.toUInt8) : skipMinus p = p := by
  rw [skipMinus, peek_cons h, if_neg (ne_ascii hb)]

theorem parseIntPart_digits {n : ℕ} (h : p.remaining = Decimal.digits n ++ rest)
    (hrest : Stops rest) : parseIntPart p = .ok (p.skip (Decimal.digits n).length) := by
  obtain ⟨b, ds, hds⟩ := List.exists_cons_of_ne_nil (Decimal.digits_ne_nil n)
  have hdigits : ∀ b ∈ Decimal.digits n, isDigit [b] = true := fun b hb => by
    rw [isDigit_singleton, Decimal.isDigit_of_mem_digits hb]
  have hcons : p.remaining = b :: (ds ++ rest) := by rw [h, hds]; rfl
  have hpeek : peek p = [b] := peek_cons hcons
  rw [parseIntPart, hpeek]
  by_cases hzero : b = '0'.toUInt8
  · have hnil := Decimal.eq_nil_of_digits_eq_zero_cons (hzero ▸ hds)
    rw [if_pos (by rw [hzero]; rfl), hds, hnil]
    rfl
  · have hlen := congrArg List.length h
    rw [length_rest, List.length_append] at hlen
    rw [if_neg (ne_ascii hzero),
      if_pos (hdigits b (hds ▸ List.mem_cons_self)), skipDigits,
      skipWhile_append rfl h hdigits (fun b hb => isDigit_of_continues (hrest b hb)) (by omega)]

theorem parseFraction_stops (h : Stops p.remaining) : parseFraction p = .ok (false, p) := by
  have hpeek := continues_peek h
  rw [continues, Bool.or_eq_false_iff, Bool.or_eq_false_iff, Bool.or_eq_false_iff,
    decide_eq_false_iff_not] at hpeek
  exact if_neg hpeek.1.1.2

theorem parseExponent_stops (h : Stops p.remaining) : parseExponent p = .ok (false, p) := by
  have hpeek := continues_peek h
  rw [continues, Bool.or_eq_false_iff, Bool.or_eq_false_iff, Bool.or_eq_false_iff,
    decide_eq_false_iff_not, decide_eq_false_iff_not, decide_eq_false_iff_not] at hpeek
  exact if_neg (not_or.mpr ⟨hpeek.1.2, hpeek.2⟩)

/-- Texts of digits of one length are compared as their numbers are. -/
theorem fitsFrom_of_le : ∀ {as bs : Text}, as.length = bs.length →
    (∀ b ∈ as, Decimal.isDigit b = true) → (∀ b ∈ bs, Decimal.isDigit b = true) → ∀ {m : ℕ},
    as.foldl (fun n b => 10 * n + (b.toNat - '0'.toNat)) m ≤
      bs.foldl (fun n b => 10 * n + (b.toNat - '0'.toNat)) m → fitsFrom as bs = true
  | [], _, _, _, _, _, _ => by rw [fitsFrom]; rintro _ _ _ _ h; cases h
  | a :: as, [], hlen, _, _, _, _ => by cases hlen
  | a :: as, b :: bs, hlen, has, hbs, m, hle => by
    obtain ⟨ha, has⟩ := List.forall_mem_cons.mp has
    obtain ⟨hb, hbs⟩ := List.forall_mem_cons.mp hbs
    rw [List.length_cons, List.length_cons, Nat.succ_inj] at hlen
    rw [List.foldl_cons, List.foldl_cons] at hle
    rw [Decimal.isDigit, Bool.and_eq_true, decide_eq_true_eq, UInt8.le_iff_toNat_le] at ha hb
    have h0 : '0'.toUInt8.toNat = '0'.toNat := rfl
    rw [fitsFrom]
    rcases lt_trichotomy a.toNat b.toNat with hlt | heq | hgt
    · rw [if_pos hlt]
    · rw [heq] at hle
      rw [if_neg heq.not_lt, if_neg heq.not_gt]
      exact fitsFrom_of_le hlen has hbs hle
    · -- a larger digit outweighs all that follow
      have hlow := Decimal.le_foldl as (10 * m + (a.toNat - '0'.toNat))
      have hhigh := Decimal.foldl_lt hbs (10 * m + (b.toNat - '0'.toNat))
      rw [hlen] at hlow
      have hmul := Nat.mul_le_mul_right (10 ^ bs.length)
        (show 10 * m + (b.toNat - '0'.toNat) + 1 ≤ 10 * m + (a.toNat - '0'.toNat) by omega)
      omega

theorem charAtIsMinus_toText (i : ℤ) : charAtIsMinus (toText i) = decide (i < 0) := by
  rw [charAtIsMinus, toText]
  by_cases hneg : i < 0
  · rw [if_pos hneg, decide_eq_true hneg]
    rfl
  · obtain ⟨b, ds, hds⟩ := List.exists_cons_of_ne_nil (Decimal.digits_ne_nil i.natAbs)
    have hb : Decimal.isDigit b = true := Decimal.isDigit_of_mem_digits (hds ▸ List.mem_cons_self)
    rw [if_neg hneg, decide_eq_false hneg, hds]
    exact decide_eq_false (ne_ascii (isDigit_ne hb (by decide)))

/-- The part behind the sign. -/
theorem drop_toText (i : ℤ) :
    (if decide (i < 0) = true then (toText i).drop 1 else toText i) = Decimal.digits i.natAbs := by
  rw [toText]
  by_cases hneg : i < 0
  · rw [if_pos (decide_eq_true hneg), if_pos hneg]
    rfl
  · rw [if_neg (by simpa using hneg), if_neg hneg]

theorem length_toText (i : ℤ) : (toText i).length =
    minusWidth (decide (i < 0)) + (Decimal.digits i.natAbs).length := by
  rw [toText]
  by_cases hneg : i < 0
  · rw [if_pos hneg, decide_eq_true hneg, List.length_cons, Nat.add_comm]
    rfl
  · rw [if_neg hneg, decide_eq_false hneg, minusWidth, if_neg Bool.false_ne_true, Nat.zero_add]

theorem length_digits_le {i : ℤ} (hlow : -2 ^ 63 ≤ i) (hhigh : i < 2 ^ 63) :
    (Decimal.digits i.natAbs).length ≤ 19 :=
  (Decimal.length_digits_le_iff (by decide)).mpr (by omega)

theorem fitsI64_toText {i : ℤ} (hlow : -2 ^ 63 ≤ i) (hhigh : i < 2 ^ 63) :
    fitsI64 (toText i) (decide (i < 0)) = true := by
  have hle := length_digits_le hlow hhigh
  have hdigits : ∀ b ∈ Decimal.digits i.natAbs, Decimal.isDigit b = true := fun b hb =>
    Decimal.isDigit_of_mem_digits hb
  have hvalue := Decimal.value_digits i.natAbs
  rw [fitsI64, drop_toText]
  by_cases hlen : (Decimal.digits i.natAbs).length ≠ 19
  · rw [if_pos hlen]
    exact decide_eq_true (by omega)
  rw [if_neg hlen]
  rw [not_not] at hlen
  by_cases hneg : i < 0
  · rw [if_pos (decide_eq_true hneg)]
    refine fitsFrom_of_le hlen hdigits (List.all_eq_true.mp (by rfl)) (m := 0) ?_
    refine hvalue.trans_le (?_ : i.natAbs ≤ 9223372036854775808)
    omega
  · rw [if_neg (by simpa using hneg)]
    refine fitsFrom_of_le hlen hdigits (List.all_eq_true.mp (by rfl)) (m := 0) ?_
    refine hvalue.trans_le (?_ : i.natAbs ≤ 9223372036854775807)
    omega

/-- An integer of 64 bits is kept exactly. -/
theorem numberValue_toText (fl : Floats F) {i : ℤ} (hlow : -2 ^ 63 ≤ i) (hhigh : i < 2 ^ 63) :
    numberValue fl (toText i) false = .ok (.int i) := by
  have hle := length_digits_le hlow hhigh
  have hdigits : ((toText i).length - minusWidth (decide (i < 0)) ≤ 18 ||
      (toText i).length - minusWidth (decide (i < 0)) == 19 &&
        fitsI64 (toText i) (decide (i < 0))) = true := by
    rw [length_toText, Nat.add_sub_cancel_left, fitsI64_toText hlow hhigh, Bool.and_true,
      Bool.or_eq_true, decide_eq_true_eq, beq_iff_eq]
    omega
  rw [numberValue, charAtIsMinus_toText]
  show (if (!false && (_ || _)) = true then _ else _) = _
  rw [Bool.not_false, Bool.true_and, if_pos hdigits, parseInt_toText hlow hhigh]
  rfl

theorem parseNumber_toText (fl : Floats F) {i : ℤ} (hlow : -2 ^ 63 ≤ i) (hhigh : i < 2 ^ 63)
    (h : p.remaining = toText i ++ rest) (hrest : Stops rest) :
    parseNumber fl p = .ok (.int i, p.skip (toText i).length) := by
  have hend : (p.skip (toText i).length).remaining = rest := rest_skip h
  have hint : parseIntPart (skipMinus p) = .ok (p.skip (toText i).length) := by
    rw [length_toText]
    by_cases hneg : i < 0
    · rw [toText, if_pos hneg] at h
      have hminus : skipMinus p = advance p := by
        rw [skipMinus, peek_cons h, if_pos (by rfl)]
      rw [hminus, parseIntPart_digits (rest_advance h) hrest, advance_eq, skip_skip,
        decide_eq_true hneg]
      rfl
    · rw [toText, if_neg hneg] at h
      obtain ⟨b, ds, hds⟩ := List.exists_cons_of_ne_nil (Decimal.digits_ne_nil i.natAbs)
      have hb : Decimal.isDigit b = true :=
        Decimal.isDigit_of_mem_digits (hds ▸ List.mem_cons_self)
      have hcons : p.remaining = b :: (ds ++ rest) := by rw [h, hds]; rfl
      have hminus : skipMinus p = p := skipMinus_of_ne hcons (isDigit_ne hb (by decide))
      rw [hminus, parseIntPart_digits h hrest, decide_eq_false hneg, minusWidth,
        if_neg Bool.false_ne_true, Nat.zero_add]
  have hne : toText i ≠ [] := by
    rw [← List.length_pos_iff, length_toText]
    exact Nat.add_pos_right _ (List.length_pos_iff.mpr (Decimal.digits_ne_nil _))
  rw [parseNumber, hint, ok_bind, parseFraction_stops (hend.symm ▸ hrest), ok_bind]
  show parseExponent _ >>= _ = _
  rw [parseExponent_stops (hend.symm ▸ hrest), ok_bind]
  refine (congrArg (· >>= _) (substring_rest h hne)).trans ?_
  rw [ok_bind]
  refine (congrArg (· >>= _) (numberValue_toText fl hlow hhigh)).trans ?_
  rfl

/-! ## Spellings -/

/-- Each further item behind a comma, with whitespace around it. -/
inductive MoreItems (S : JsonValue F → Text → Prop) : List (JsonValue F) → Text → Prop
  | nil : MoreItems S [] []
  | cons {item : JsonValue F} {items : List (JsonValue F)} {a w b t : Text} (ha : Blank a)
      (hw : S item w) (hb : Blank b) (ht : MoreItems S items t) :
      MoreItems S (item :: items) (comma ++ (a ++ (w ++ (b ++ t))))

/-- Each further pair behind a comma, with whitespace around the key and the value. -/
inductive MoreMembers (S : JsonValue F → Text → Prop) :
    List Text → List (JsonValue F) → Text → Prop
  | nil : MoreMembers S [] [] []
  | cons {key : Text} {value : JsonValue F} {keys : List Text} {values : List (JsonValue F)}
      {a b c w d t : Text} (ha : Blank a) (hb : Blank b) (hc : Blank c) (hw : S value w)
      (hd : Blank d) (ht : MoreMembers S keys values t) :
      MoreMembers S (key :: keys) (value :: values)
        (comma ++ (a ++ (escapeString key ++ (b ++ (colon ++ (c ++ (w ++ (d ++ t))))))))

/-- The texts that stand for a value: whitespace is free, strings are escaped as they are
printed. -/
inductive Spells : JsonValue F → Text → Prop
  | null : Spells .null nullText
  | bool (b : Bool) : Spells (.bool b) (boolToStr b)
  | int (i : ℤ) : Spells (.int i) (toText i)
  | string (s : Text) : Spells (.string s) (escapeString s)
  | emptyArray : Spells (.array []) (ascii ['[', ']'])
  | array {item : JsonValue F} {items : List (JsonValue F)} {a w b t : Text} (ha : Blank a)
      (hw : Spells item w) (hb : Blank b) (ht : MoreItems Spells items t) :
      Spells (.array (item :: items)) (ascii ['['] ++ (a ++ (w ++ (b ++ (t ++ ascii [']'])))))
  | emptyObject : Spells (.object [] []) (ascii ['\x7b', '\x7d'])
  | object {key : Text} {value : JsonValue F} {keys : List Text} {values : List (JsonValue F)}
      {a b c w d t : Text} (ha : Blank a) (hb : Blank b) (hc : Blank c) (hw : Spells value w)
      (hd : Blank d) (ht : MoreMembers Spells keys values t) :
      Spells (.object (key :: keys) (value :: values))
        (ascii ['\x7b'] ++ (a ++ (escapeString key ++ (b ++ (colon ++ (c ++ (w ++ (d ++
          (t ++ ascii ['\x7d'])))))))))

/-- Values without floats that are nested at most `n` deep. -/
inductive Printable : ℕ → JsonValue F → Prop
  | null {n : ℕ} : Printable n .null
  | bool {n : ℕ} (b : Bool) : Printable n (.bool b)
  | int {n : ℕ} {i : ℤ} (hlow : -2 ^ 63 ≤ i) (hhigh : i < 2 ^ 63) : Printable n (.int i)
  | string {n : ℕ} (s : Text) : Printable n (.string s)
  | array {n : ℕ} {items : List (JsonValue F)} (hitems : ∀ item ∈ items, Printable n item) :
      Printable (n + 1) (.array items)
  | object {n : ℕ} {keys : List Text} {values : List (JsonValue F)}
      (hlen : keys.length = values.length) (hvalues : ∀ value ∈ values, Printable n value) :
      Printable (n + 1) (.object keys values)

/-! ## Every spelling is read -/

/-- What comes behind a value, apart from whitespace. -/
def Closes (t : Text) : Prop := ∀ b ∈ t.head?, b ∈ ascii [',', ']', '\x7d']

theorem Closes.not_whitespace (ht : Closes t) : ∀ b ∈ t.head?, isWhitespace [b] = false := by
  intro b hb
  have h := List.all_eq_true.mp (by rfl :
    (ascii [',', ']', '\x7d']).all (fun b => !isWhitespace [b]) = true) b (ht b hb)
  exact Bool.not_eq_true' _ ▸ h

theorem Closes.stops (ht : Closes t) (ha : Blank a) : Stops (a ++ t) := by
  cases a with
  | nil =>
    intro b hb
    have h := List.all_eq_true.mp (by rfl :
      (ascii [',', ']', '\x7d']).all (fun b => !continues [b]) = true) b (ht b hb)
    exact Bool.not_eq_true' _ ▸ h
  | cons b a =>
    intro c hc
    obtain rfl : b = c := Option.some.inj hc
    have h := ha b List.mem_cons_self
    rw [isWhitespace, Bool.or_eq_true, Bool.or_eq_true, Bool.or_eq_true, decide_eq_true_eq,
      decide_eq_true_eq, decide_eq_true_eq, decide_eq_true_eq] at h
    rcases h with ((h | h) | h) | h <;> rw [h] <;> rfl

/-- A text that begins a value. -/
def Starts (w : Text) : Prop :=
  ∃ b t, w = b :: t ∧ isWhitespace [b] = false ∧ [b] ≠ ascii [']']

/-- The parser for values reads the text, whatever comes behind it. -/
def Reads (parseElem : Parser → Except Failure (JsonValue F × Parser)) (value : JsonValue F)
    (w : Text) : Prop :=
  ∀ (p : Parser) (rest : Text), p.remaining = w ++ rest → Stops rest →
    parseElem p = .ok (value, p.skip w.length)

variable {S : JsonValue F → Text → Prop} {items values : List (JsonValue F)} {keys : List Text}
  {value : JsonValue F} {key c d : Text} {n fuel : ℕ}
  {parseElem : Parser → Except Failure (JsonValue F × Parser)}

theorem starts_of_isDigit (hb : Decimal.isDigit b = true) (t : Text) : Starts (b :: t) := by
  refine ⟨b, t, rfl, ?_, ne_ascii (isDigit_ne hb (by decide))⟩
  rw [isWhitespace, Bool.or_eq_false_iff, Bool.or_eq_false_iff, Bool.or_eq_false_iff]
  exact ⟨⟨⟨decide_eq_false (ne_ascii (isDigit_ne hb (by decide))),
    decide_eq_false (ne_ascii (isDigit_ne hb (by decide)))⟩,
    decide_eq_false (ne_ascii (isDigit_ne hb (by decide)))⟩,
    decide_eq_false (ne_ascii (isDigit_ne hb (by decide)))⟩

theorem starts_toText (i : ℤ) : Starts (toText i) := by
  rw [toText]
  split
  · exact ⟨_, _, rfl, by rfl, by decide⟩
  · obtain ⟨b, ds, hds⟩ := List.exists_cons_of_ne_nil (Decimal.digits_ne_nil i.natAbs)
    rw [hds]
    exact starts_of_isDigit (Decimal.isDigit_of_mem_digits (hds ▸ List.mem_cons_self)) ds

theorem Spells.starts (h : Spells value w) : Starts w := by
  cases h with
  | null | string s | emptyArray | array | emptyObject | object =>
    exact ⟨_, _, rfl, by rfl, by decide⟩
  | bool b => cases b <;> exact ⟨_, _, rfl, by rfl, by decide⟩
  | int i => exact starts_toText i

theorem Starts.not_whitespace (h : Starts w) (rest : Text) :
    ∀ b ∈ (w ++ rest).head?, isWhitespace [b] = false := by
  obtain ⟨b, t, rfl, hb, _⟩ := h
  rintro c hc
  rwa [← Option.some.inj hc]

/-- A value is read together with the whitespace around it. -/
theorem parseElem_around (hread : Reads parseElem value w) (hstart : Starts w) (ha : Blank a)
    (hc : Blank c) (ht : Closes t) (h : p.remaining = a ++ (w ++ (c ++ t))) :
    parseElem (skipWhitespace p) = .ok (value, p.skip (a.length + w.length)) ∧
      skipWhitespace (p.skip (a.length + w.length)) =
        p.skip (a.length + w.length + c.length) := by
  have hskip := skipWhitespace_append h ha (hstart.not_whitespace _)
  have hparsed := hread (p.skip a.length) (c ++ t) (rest_skip h) (ht.stops hc)
  have hbehind : (p.skip (a.length + w.length)).remaining = c ++ t := by
    rw [← skip_skip]
    exact rest_skip (rest_skip h)
  refine ⟨?_, ?_⟩
  · rw [hskip, hparsed, skip_skip]
  · rw [skipWhitespace_append hbehind hc ht.not_whitespace, skip_skip]

theorem MoreItems.closes (h : MoreItems S items t) (hrest : Closes rest) :
    Closes (t ++ rest) := by
  cases h with
  | nil => exact hrest
  | cons => rintro b ⟨⟩; exact List.mem_cons_self

theorem MoreMembers.closes (h : MoreMembers S keys values t) (hrest : Closes rest) :
    Closes (t ++ rest) := by
  cases h with
  | nil => exact hrest
  | cons => rintro b ⟨⟩; exact List.mem_cons_self

theorem closes_bracket (rest : Text) : Closes (ascii [']'] ++ rest) := by
  rintro b ⟨⟩
  decide

theorem closes_brace (rest : Text) : Closes (ascii ['\x7d'] ++ rest) := by
  rintro b ⟨⟩
  decide

theorem parseItems_of_more (hstart : ∀ {item w}, S item w → Starts w)
    (hmore : MoreItems S items t) : (∀ item ∈ items, ∀ w, S item w → Reads parseElem item w) →
    ∀ {fuel : ℕ} {p : Parser} (done : List (JsonValue F)), t.length < fuel →
    p.remaining = t ++ (ascii [']'] ++ rest) →
    parseItems parseElem fuel p done = .ok (done ++ items, p.skip t.length) := by
  induction hmore with
  | nil =>
    rintro - (_ | fuel) p done hfuel h
    · cases hfuel
    · rw [parseItems, peek_cons h, if_neg (by decide), List.append_nil]
      rfl
  | @cons item items a w c t ha hw hc ht ih =>
    rintro hread (_ | fuel) p done hfuel h
    · cases hfuel
    · obtain ⟨hitem, hread⟩ := List.forall_mem_cons.mp hread
      rw [List.append_assoc, List.append_assoc, List.append_assoc, List.append_assoc] at h
      have hnext : (p.skip 1).remaining = a ++ (w ++ (c ++ (t ++ (ascii [']'] ++ rest)))) :=
        rest_skip (w := comma) h
      obtain ⟨hparsed, hskip⟩ := parseElem_around (hitem w hw) (hstart hw) ha hc
        (ht.closes (closes_bracket rest)) hnext
      have hbehind : ((p.skip 1).skip (a.length + w.length + c.length)).remaining =
          t ++ (ascii [']'] ++ rest) := by
        rw [← skip_skip, ← skip_skip]
        exact rest_skip (rest_skip (rest_skip hnext))
      rw [List.length_append, List.length_append, List.length_append, List.length_append,
        show comma.length = 1 from rfl] at hfuel ⊢
      rw [parseItems, peek_cons h, if_pos (by decide), advance_eq, hparsed, ok_bind]
      show parseItems parseElem fuel (skipWhitespace _) _ = _
      rw [hskip, ih hread (done ++ [item]) (by omega) hbehind, skip_skip, skip_skip,
        List.append_assoc]
      refine congrArg (fun q => Except.ok (_, q)) (congrArg p.skip ?_)
      omega

theorem parseArray_empty (h : p.remaining = ascii ['[', ']'] ++ rest) :
    parseArray parseElem p = .ok (.array [], p.skip 2) := by
  have hnext : (advance p).remaining = [] ++ (ascii [']'] ++ rest) := rest_advance h
  have hskip := skipWhitespace_append hnext (List.forall_mem_nil _)
    (closes_bracket rest).not_whitespace
  rw [parseArray, expectChar_ascii h, ok_bind]
  show (if peek (skipWhitespace (advance p)) = _ then _ else _) = _
  have hpeek : peek ((advance p).skip 0) = ascii [']'] := peek_cons hnext
  rw [hskip, if_pos (by exact hpeek)]
  rfl

theorem parseArray_of_spells (hstart : ∀ {item w}, S item w → Starts w)
    (hread : ∀ item ∈ value :: items, ∀ w, S item w → Reads parseElem item w) (ha : Blank a)
    (hw : S value w) (hc : Blank c) (ht : MoreItems S items t)
    (h : p.remaining = ascii ['['] ++ (a ++ (w ++ (c ++ (t ++ ascii [']'])))) ++ rest) :
    parseArray parseElem p = .ok (.array (value :: items),
      p.skip (ascii ['['] ++ (a ++ (w ++ (c ++ (t ++ ascii [']']))))).length) := by
  obtain ⟨hvalue, hread⟩ := List.forall_mem_cons.mp hread
  rw [List.append_assoc, List.append_assoc, List.append_assoc, List.append_assoc,
    List.append_assoc] at h
  have hnext : (advance p).remaining = a ++ (w ++ (c ++ (t ++ (ascii [']'] ++ rest)))) :=
    rest_advance h
  obtain ⟨hparsed, hskip⟩ := parseElem_around (hvalue w hw) (hstart hw) ha hc
    (ht.closes (closes_bracket rest)) hnext
  have hfirst : peek (skipWhitespace (advance p)) ≠ ascii [']'] := by
    rw [skipWhitespace_append hnext ha ((hstart hw).not_whitespace _)]
    obtain ⟨b, w', rfl, _, hb⟩ := hstart hw
    have hpeek : ((advance p).skip a.length).remaining = b :: (w' ++ (c ++ (t ++ (ascii [']'] ++
        rest)))) := rest_skip hnext
    rwa [peek_cons hpeek]
  have hbehind : ((advance p).skip (a.length + w.length + c.length)).remaining =
      t ++ (ascii [']'] ++ rest) := by
    rw [← skip_skip, ← skip_skip]
    exact rest_skip (rest_skip (rest_skip hnext))
  have hlen := congrArg List.length hbehind
  rw [length_rest, List.length_append] at hlen
  rw [parseArray, expectChar_ascii h, ok_bind]
  show (if peek (skipWhitespace (advance p)) = _ then _ else _) = _
  rw [if_neg hfirst, hparsed, ok_bind]
  show parseItems parseElem ((skipWhitespace _).input.length - (skipWhitespace _).pos + 1)
    (skipWhitespace _) _ >>= _ = _
  rw [hskip, parseItems_of_more hstart ht hread [value] (by omega) hbehind, ok_bind]
  show expectChar _ (ascii [']']) >>= _ = _
  rw [expectChar_ascii (rest_skip hbehind), ok_bind, advance_eq, advance_eq, skip_skip, skip_skip,
    skip_skip]
  refine congrArg (fun q => Except.ok (_, q)) (congrArg p.skip ?_)
  rw [List.length_append, List.length_append, List.length_append, List.length_append,
    List.length_append, show (ascii ['[']).length = 1 from rfl,
    show (ascii [']']).length = 1 from rfl]
  omega

/-- A key, the colon and the value are read together with the whitespace around them. -/
theorem parseMember_around (hread : Reads parseElem value w) (hstart : Starts w) (hb : Blank a)
    (hc : Blank c) (hd : Blank d) (ht : Closes t)
    (h : p.remaining = escapeString key ++ (a ++ (colon ++ (c ++ (w ++ (d ++ t)))))) :
    parseMember parseElem p = .ok (key, value,
      p.skip (escapeString key ++ (a ++ (colon ++ (c ++ (w ++ d))))).length) := by
  have hkey : (p.skip (escapeString key).length).remaining =
      a ++ (colon ++ (c ++ (w ++ (d ++ t)))) := rest_skip h
  have hcolon : ((p.skip (escapeString key).length).skip a.length).remaining =
      ':'.toUInt8 :: (c ++ (w ++ (d ++ t))) := rest_skip hkey
  obtain ⟨hparsed, hskip⟩ := parseElem_around hread hstart hc hd ht (rest_advance hcolon)
  have hspace : ∀ b ∈ (colon ++ (c ++ (w ++ (d ++ t)))).head?, isWhitespace [b] = false := by
    rintro b ⟨⟩
    rfl
  rw [parseMember, parseString_escape h, ok_bind]
  show expectChar (skipWhitespace _) colon >>= _ = _
  rw [skipWhitespace_append hkey hb hspace, colon, expectChar_cons hcolon, ok_bind, hparsed,
    ok_bind]
  refine congrArg (fun q => Except.ok (_, _, q)) (hskip.trans ?_)
  rw [advance_eq, skip_skip, skip_skip, skip_skip]
  refine congrArg p.skip ?_
  rw [List.length_append, List.length_append, List.length_append, List.length_append,
    List.length_append, List.length_singleton]
  omega

theorem parseMembers_of_more (hstart : ∀ {value w}, S value w → Starts w)
    (hmore : MoreMembers S keys values t) :
    (∀ value ∈ values, ∀ w, S value w → Reads parseElem value w) →
    ∀ {fuel : ℕ} {p : Parser} (doneKeys : List Text) (doneValues : List (JsonValue F)),
    t.length < fuel → p.remaining = t ++ (ascii ['\x7d'] ++ rest) →
    parseMembers parseElem fuel p doneKeys doneValues =
      .ok (doneKeys ++ keys, doneValues ++ values, p.skip t.length) := by
  induction hmore with
  | nil =>
    rintro - (_ | fuel) p doneKeys doneValues hfuel h
    · cases hfuel
    · rw [parseMembers, peek_cons h, if_neg (by decide), List.append_nil, List.append_nil]
      rfl
  | @cons key value keys values a b c w d t ha hb hc hw hd ht ih =>
    rintro hread (_ | fuel) p doneKeys doneValues hfuel h
    · cases hfuel
    · obtain ⟨hvalue, hread⟩ := List.forall_mem_cons.mp hread
      simp only [List.append_assoc] at h
      have hnext : (advance p).remaining = a ++ (escapeString key ++ (b ++ (colon ++ (c ++ (w ++
          (d ++ (t ++ (ascii ['\x7d'] ++ rest)))))))) := rest_advance h
      have hkey : ∀ x ∈ (escapeString key ++ (b ++ (colon ++ (c ++ (w ++ (d ++ (t ++
          (ascii ['\x7d'] ++ rest)))))))).head?, isWhitespace [x] = false := by
        rintro x ⟨⟩
        rfl
      have hmember := parseMember_around (hvalue w hw) (hstart hw) hb hc hd
        (ht.closes (closes_brace rest)) (rest_skip hnext)
      have hbehind : (((advance p).skip a.length).skip
          (escapeString key ++ (b ++ (colon ++ (c ++ (w ++ d))))).length).remaining =
          t ++ (ascii ['\x7d'] ++ rest) := by
        refine rest_skip ((rest_skip hnext).trans ?_)
        simp only [List.append_assoc]
      have hlen : (comma ++ (a ++ (escapeString key ++ (b ++ (colon ++ (c ++ (w ++
          (d ++ t)))))))).length = 1 + a.length +
          (escapeString key ++ (b ++ (colon ++ (c ++ (w ++ d))))).length + t.length := by
        simp only [List.length_append, show comma.length = 1 from rfl]
        omega
      rw [hlen] at hfuel ⊢
      rw [parseMembers, peek_cons h, if_pos (by decide), skipWhitespace_append hnext ha hkey,
        hmember, ok_bind]
      show parseMembers parseElem fuel _ _ _ = _
      rw [ih hread (doneKeys ++ [key]) (doneValues ++ [value]) (by omega) hbehind, advance_eq,
        skip_skip, skip_skip, skip_skip, List.append_assoc, List.append_assoc, ← Nat.add_assoc,
        ← Nat.add_assoc]
      rfl

theorem parseObject_empty (h : p.remaining = ascii ['\x7b', '\x7d'] ++ rest) :
    parseObject parseElem p = .ok (.object [] [], p.skip 2) := by
  have hnext : (advance p).remaining = [] ++ (ascii ['\x7d'] ++ rest) := rest_advance h
  have hskip := skipWhitespace_append hnext (List.forall_mem_nil _)
    (closes_brace rest).not_whitespace
  have hpeek : peek ((advance p).skip 0) = ascii ['\x7d'] := peek_cons hnext
  rw [parseObject, expectChar_ascii h, ok_bind]
  show (if charCode (peek (skipWhitespace (advance p))) = 125 then _ else _) = _
  rw [hskip, List.length_nil, hpeek, if_pos (by decide)]
  rfl

theorem parseObject_of_spells (hstart : ∀ {value w}, S value w → Starts w)
    (hread : ∀ item ∈ value :: values, ∀ w, S item w → Reads parseElem item w) (ha : Blank a)
    (hb : Blank t) (hc : Blank c) (hw : S value w) (hd : Blank d) {u : Text}
    (hu : MoreMembers S keys values u)
    (h : p.remaining = ascii ['\x7b'] ++ (a ++ (escapeString key ++ (t ++ (colon ++ (c ++ (w ++
      (d ++ (u ++ ascii ['\x7d'])))))))) ++ rest) :
    parseObject parseElem p = .ok (.object (key :: keys) (value :: values),
      p.skip (ascii ['\x7b'] ++ (a ++ (escapeString key ++ (t ++ (colon ++ (c ++ (w ++ (d ++
        (u ++ ascii ['\x7d']))))))))).length) := by
  obtain ⟨hvalue, hread⟩ := List.forall_mem_cons.mp hread
  simp only [List.append_assoc] at h
  have hnext : (advance p).remaining = a ++ (escapeString key ++ (t ++ (colon ++ (c ++ (w ++
      (d ++ (u ++ (ascii ['\x7d'] ++ rest)))))))) := rest_advance h
  have hkey : ∀ x ∈ (escapeString key ++ (t ++ (colon ++ (c ++ (w ++ (d ++ (u ++
      (ascii ['\x7d'] ++ rest)))))))).head?, isWhitespace [x] = false := by
    rintro x ⟨⟩
    rfl
  have hfirst := rest_skip hnext
  have hmember := parseMember_around (hvalue w hw) (hstart hw) hb hc hd
    (hu.closes (closes_brace rest)) hfirst
  have hbehind : (((advance p).skip a.length).skip
      (escapeString key ++ (t ++ (colon ++ (c ++ (w ++ d))))).length).remaining =
      u ++ (ascii ['\x7d'] ++ rest) := by
    refine rest_skip (hfirst.trans ?_)
    simp only [List.append_assoc]
  have hlen := (congrArg List.length hbehind).trans List.length_append
  rw [length_rest] at hlen
  rw [parseObject, expectChar_ascii h, ok_bind]
  show (if charCode (peek (skipWhitespace (advance p))) = 125 then _ else _) = _
  rw [skipWhitespace_append hnext ha hkey, peek_cons hfirst, if_neg (by decide), hmember, ok_bind]
  show parseMembers _ _ _ _ _ >>= _ = _
  rw [parseMembers_of_more hstart hu hread [key] [value] (by omega) hbehind, ok_bind]
  show expectChar _ (ascii ['\x7d']) >>= _ = _
  rw [expectChar_ascii (rest_skip hbehind), ok_bind, advance_eq, advance_eq, skip_skip, skip_skip,
    skip_skip, skip_skip]
  refine congrArg (fun q => Except.ok (_, q)) (congrArg p.skip ?_)
  simp only [List.length_append, show (ascii ['\x7b']).length = 1 from rfl,
    show (ascii ['\x7d']).length = 1 from rfl]
  omega

/-- The first character tells what is parsed. -/
theorem parseValue_cons (fl : Floats F) {depth : ℕ} (hdepth : depth ≤ 1000)
    (hb : isWhitespace [b] = false) (h : p.remaining = b :: rest) :
    parseValue fl (fuel + 1) p depth =
      if [b] = quote then (parseString p).map fun parsed => (.string parsed.1, parsed.2)
      else if b.toNat = 123 then parseObject (fun q => parseValue fl fuel q (depth + 1)) p
      else if [b] = ascii ['['] then parseArray (fun q => parseValue fl fuel q (depth + 1)) p
      else if [b] = ascii ['t'] then parseTrue p
      else if [b] = ascii ['f'] then parseFalse p
      else if [b] = ascii ['n'] then parseNull p
      else if [b] = ascii ['-'] ∨ isDigit [b] = true then parseNumber fl p
      else .error (.thrown (text "json: unexpected character '" ++ [b] ++ text "' at position " ++
        toText p.pos)) := by
  have hskip : skipWhitespace p = p := by
    refine skipWhitespace_append (a := []) h (List.forall_mem_nil _) ?_
    rintro c ⟨⟩
    exact hb
  rw [parseValue, if_neg (Nat.not_lt.mpr hdepth)]
  simp only [hskip, peek_cons h, List.cons_ne_nil, if_false]
  rfl

theorem parseValue_int (fl : Floats F) {depth : ℕ} (hdepth : depth ≤ 1000) {i : ℤ}
    (hlow : -2 ^ 63 ≤ i) (hhigh : i < 2 ^ 63) :
    Reads (fun q => parseValue fl (fuel + 1) q depth) (.int i) (toText i) := by
  intro p rest h hrest
  have hnumber := parseNumber_toText fl hlow hhigh h hrest
  obtain ⟨b, t, hb, hspace, -⟩ := starts_toText i
  have hhead : b = '-'.toUInt8 ∨ Decimal.isDigit b = true := by
    rw [toText] at hb
    by_cases hneg : i < 0
    · rw [if_pos hneg] at hb
      exact Or.inl (List.cons_eq_cons.mp hb).1.symm
    · rw [if_neg hneg] at hb
      exact Or.inr (Decimal.isDigit_of_mem_digits (n := i.natAbs) (hb ▸ List.mem_cons_self))
  have hcons : p.remaining = b :: (t ++ rest) := by rw [h, hb]; rfl
  refine (parseValue_cons fl hdepth hspace hcons).trans ?_
  rcases hhead with rfl | hdigit
  · exact hnumber
  · have hquote : ¬[b] = quote := ne_ascii (c := '"') (isDigit_ne hdigit (by decide))
    have hbrace : b.toNat ≠ 123 := fun heq =>
      isDigit_ne hdigit (c := 123) (by decide) (UInt8.toNat_inj.mp heq)
    rw [if_neg hquote, if_neg hbrace, if_neg (ne_ascii (isDigit_ne hdigit (by decide))),
      if_neg (ne_ascii (isDigit_ne hdigit (by decide))),
      if_neg (ne_ascii (isDigit_ne hdigit (by decide))),
      if_neg (ne_ascii (isDigit_ne hdigit (by decide))),
      if_pos (Or.inr ((isDigit_singleton b).trans hdigit)), hnumber]

/-- The parser reads every spelling of a value. -/
theorem parseValue_of_spells (fl : Floats F) (hprint : Printable n value) :
    ∀ {w : Text} {fuel depth : ℕ}, Spells value w → n < fuel → depth + n ≤ 1000 →
    Reads (fun q => parseValue fl fuel q depth) value w := by
  induction hprint with
  | null =>
    rintro w (_ | fuel) depth ⟨⟩ hfuel hdepth p rest h -
    · cases hfuel
    · refine (parseValue_cons fl (by omega) (by rfl) h).trans ?_
      show parseNull p = _
      rw [parseNull]
      exact (congrArg (· >>= _) (expectAll_append h)).trans (ok_bind _ _)
  | bool b =>
    rintro w (_ | fuel) depth ⟨⟩ hfuel hdepth p rest h -
    · cases hfuel
    cases b with
    | false =>
      refine (parseValue_cons fl (by omega) (by rfl) h).trans ?_
      show parseFalse p = _
      rw [parseFalse]
      exact (congrArg (· >>= _) (expectAll_append h)).trans (ok_bind _ _)
    | true =>
      refine (parseValue_cons fl (by omega) (by rfl) h).trans ?_
      show parseTrue p = _
      rw [parseTrue]
      exact (congrArg (· >>= _) (expectAll_append h)).trans (ok_bind _ _)
  | int hlow hhigh =>
    rintro w (_ | fuel) depth ⟨⟩ hfuel hdepth
    · cases hfuel
    · exact parseValue_int fl (by omega) hlow hhigh
  | string s =>
    rintro w (_ | fuel) depth ⟨⟩ hfuel hdepth p rest h -
    · cases hfuel
    · refine (parseValue_cons fl (by omega) (by rfl) h).trans ?_
      show (parseString p).map _ = _
      rw [parseString_escape h]
      rfl
  | array hitems ih =>
    rintro w (_ | fuel) depth hspells hfuel hdepth p rest h -
    · cases hfuel
    have hread : ∀ item ∈ _, ∀ w, Spells item w →
        Reads (fun q => parseValue fl fuel q (depth + 1)) item w := fun item hitem w hw =>
      ih item hitem hw (by omega) (by omega)
    cases hspells with
    | emptyArray =>
      refine (parseValue_cons fl (by omega) (by rfl) h).trans ?_
      rw [if_neg (by decide), if_neg (by decide), if_pos (by decide), parseArray_empty h]
      rfl
    | array ha hw hb ht =>
      exact (parseValue_cons fl (by omega) (by rfl) h).trans
        (parseArray_of_spells Spells.starts hread ha hw hb ht h)
  | object hlen hvalues ih =>
    rintro w (_ | fuel) depth hspells hfuel hdepth p rest h -
    · cases hfuel
    have hread : ∀ item ∈ _, ∀ w, Spells item w →
        Reads (fun q => parseValue fl fuel q (depth + 1)) item w := fun item hitem w hw =>
      ih item hitem hw (by omega) (by omega)
    cases hspells with
    | emptyObject =>
      refine (parseValue_cons fl (by omega) (by rfl) h).trans ?_
      rw [if_neg (by decide), if_pos (by decide), parseObject_empty h]
      rfl
    | object ha hb hc hw hd ht =>
      exact (parseValue_cons fl (by omega) (by rfl) h).trans
        (parseObject_of_spells Spells.starts hread ha hb hc hw hd ht h)

theorem parse_of_spells (fl : Floats F) (hprint : Printable 1000 value) (h : Spells value w) :
    parse fl w = .ok value := by
  have hstart : (⟨w, 0⟩ : Parser).remaining = w := rfl
  have hspace : ∀ b ∈ w.head?, isWhitespace [b] = false := by
    have hstarts := h.starts.not_whitespace []
    rwa [List.append_nil] at hstarts
  have hskip : skipWhitespace ⟨w, 0⟩ = ⟨w, 0⟩ :=
    skipWhitespace_append (a := []) (t := w) hstart (List.forall_mem_nil _) hspace
  have hreads : Reads (fun q => parseValue fl 1002 q 0) value w :=
    parseValue_of_spells fl hprint h (by decide) (by decide)
  have hparsed := hreads ⟨w, 0⟩ [] (List.append_nil w).symm (by rintro b ⟨⟩)
  have hrest : (Parser.skip ⟨w, 0⟩ w.length).remaining = [] :=
    rest_skip (hstart.trans (List.append_nil w).symm)
  have htail : skipWhitespace (Parser.skip ⟨w, 0⟩ w.length) = Parser.skip ⟨w, 0⟩ w.length :=
    skipWhitespace_append (a := []) (t := []) hrest (List.forall_mem_nil _) (by rintro b ⟨⟩)
  rw [parse, hskip]
  refine (congrArg (· >>= _) hparsed).trans ?_
  rw [ok_bind]
  show (if (skipWhitespace _).pos < (skipWhitespace _).input.length then _ else _) = _
  rw [htail, if_neg]
  show ¬0 + w.length < w.length
  omega

/-! ## Both printers write spellings -/

theorem more_stringifyItems (fl : Floats F) : ∀ {items : List (JsonValue F)},
    (∀ item ∈ items, ∃ w, stringify fl item = .ok w ∧ Spells item w) →
    ∃ t, stringifyItems fl items false = .ok t ∧ MoreItems Spells items t
  | [], _ => ⟨[], by rw [stringifyItems], .nil⟩
  | item :: items, h => by
    obtain ⟨⟨w, hw, hspells⟩, h⟩ := List.forall_mem_cons.mp h
    obtain ⟨t, ht, hmore⟩ := more_stringifyItems fl h
    refine ⟨comma ++ ([] ++ (w ++ ([] ++ t))), ?_,
      .cons (List.forall_mem_nil _) hspells (List.forall_mem_nil _) hmore⟩
    rw [stringifyItems, hw, ok_bind, ht, ok_bind]
    simp

theorem more_stringifyMembers (fl : Floats F) : ∀ {keys : List Text} {values : List (JsonValue F)}
    {i : ℕ}, keys.length = values.length →
    (∀ value ∈ values, ∃ w, stringify fl value = .ok w ∧ Spells value w) → 0 < i →
    ∃ t, stringifyMembers fl keys values i = .ok t ∧ MoreMembers Spells keys values t
  | [], [], _, _, _, _ => ⟨[], by rw [stringifyMembers], .nil⟩
  | key :: keys, value :: values, i, hlen, h, hi => by
    obtain ⟨⟨w, hw, hspells⟩, h⟩ := List.forall_mem_cons.mp h
    obtain ⟨t, ht, hmore⟩ := more_stringifyMembers fl (Nat.succ_inj.mp hlen) h (Nat.succ_pos i)
    refine ⟨comma ++ ([] ++ (escapeString key ++ ([] ++ (colon ++ ([] ++ (w ++ ([] ++ t))))))), ?_,
      .cons (List.forall_mem_nil _) (List.forall_mem_nil _) (List.forall_mem_nil _) hspells
        (List.forall_mem_nil _) hmore⟩
    rw [stringifyMembers, hw, ok_bind, ht, ok_bind, if_pos hi]
    simp

/-- The compact printer puts no whitespace anywhere. -/
theorem spells_stringify (fl : Floats F) (hprint : Printable n value) :
    ∃ w, stringify fl value = .ok w ∧ Spells value w := by
  induction hprint with
  | null => exact ⟨_, by rw [stringify], .null⟩
  | bool b => exact ⟨_, by rw [stringify], .bool b⟩
  | int => exact ⟨_, by rw [stringify], .int _⟩
  | string s => exact ⟨_, by rw [stringify], .string s⟩
  | @array n items _ ih =>
    cases items with
    | nil => exact ⟨_, by rw [stringify, stringifyItems, ok_bind]; rfl, .emptyArray⟩
    | cons item items =>
      obtain ⟨⟨w, hw, hspells⟩, ih⟩ := List.forall_mem_cons.mp ih
      obtain ⟨t, ht, hmore⟩ := more_stringifyItems fl ih
      refine ⟨ascii ['['] ++ ([] ++ (w ++ ([] ++ (t ++ ascii [']'])))), ?_,
        .array (List.forall_mem_nil _) hspells (List.forall_mem_nil _) hmore⟩
      rw [stringify, stringifyItems, hw, ok_bind, ht, ok_bind, ok_bind]
      simp
  | @object n keys values hlen _ ih =>
    cases keys with
    | nil =>
      obtain rfl := List.length_eq_zero_iff.mp hlen.symm
      exact ⟨_, by rw [stringify, stringifyMembers, ok_bind]; rfl, .emptyObject⟩
    | cons key keys =>
      obtain ⟨value, values, rfl⟩ := List.exists_cons_of_length_eq_add_one hlen.symm
      obtain ⟨⟨w, hw, hspells⟩, ih⟩ := List.forall_mem_cons.mp ih
      obtain ⟨t, ht, hmore⟩ := more_stringifyMembers fl (Nat.succ_inj.mp hlen) ih Nat.one_pos
      refine ⟨ascii ['\x7b'] ++ ([] ++ (escapeString key ++ ([] ++ (colon ++ ([] ++ (w ++ ([] ++
        (t ++ ascii ['\x7d'])))))))), ?_, .object (List.forall_mem_nil _) (List.forall_mem_nil _)
          (List.forall_mem_nil _) hspells (List.forall_mem_nil _) hmore⟩
      rw [stringify, stringifyMembers, hw, ok_bind, ht, ok_bind, ok_bind, if_neg (Nat.lt_irrefl 0)]
      simp

theorem blank_newline : Blank newline := by
  rintro b (_ | ⟨_, ⟨⟩⟩)
  rfl

theorem blank_space : Blank (ascii [' ']) := by
  rintro b (_ | ⟨_, ⟨⟩⟩)
  rfl

theorem blank_indentStr (indent : ℤ) (depth : ℕ) : Blank (indentStr indent depth) := by
  intro b hb
  rw [List.eq_of_mem_replicate hb]
  rfl

theorem Blank.append (ha : Blank a) (hc : Blank c) : Blank (a ++ c) := fun b hb =>
  (List.mem_append.mp hb).elim (ha b) (hc b)

/-- The line of the first item, and the lines of the others up to the closing bracket: the
whitespace behind a comma belongs to the next item. -/
theorem more_prettyItems (fl : Floats F) (indent : ℤ) (depth : ℕ) {close : Text}
    (hclose : Blank close) : ∀ {items : List (JsonValue F)} {item : JsonValue F},
    (∀ v ∈ item :: items, ∀ depth, ∃ w, prettyPrintInner fl indent v depth = .ok w ∧
      Spells v w) →
    ∃ x w c t, prettyItems fl indent (item :: items) depth = .ok x ∧ Spells item w ∧ Blank c ∧
      MoreItems Spells items t ∧ x ++ close = indentStr indent (depth + 1) ++ (w ++ (c ++ t))
  | [], item, h => by
    obtain ⟨w, hw, hspells⟩ := h item List.mem_cons_self (depth + 1)
    refine ⟨_, w, newline ++ close, [], by rw [prettyItems, hw, ok_bind, prettyItems, ok_bind],
      hspells, blank_newline.append hclose, .nil, ?_⟩
    simp
  | next :: items, item, h => by
    obtain ⟨hitem, h⟩ := List.forall_mem_cons.mp h
    obtain ⟨w, hw, hspells⟩ := hitem (depth + 1)
    obtain ⟨x, w', c, t, hx, hspells', hc, hmore, heq⟩ :=
      more_prettyItems fl indent depth hclose h
    refine ⟨_, w, [], comma ++ ((newline ++ indentStr indent (depth + 1)) ++ (w' ++ (c ++ t))),
      by rw [prettyItems, hw, ok_bind, hx, ok_bind], hspells, List.forall_mem_nil _,
      .cons (blank_newline.append (blank_indentStr _ _)) hspells' hc hmore, ?_⟩
    simp [heq]

theorem more_prettyMembers (fl : Floats F) (indent : ℤ) (depth : ℕ) {close : Text}
    (hclose : Blank close) : ∀ {keys : List Text} {values : List (JsonValue F)} {key : Text}
    {value : JsonValue F} (i : ℕ), keys.length = values.length →
    (∀ v ∈ value :: values, ∀ depth, ∃ w, prettyPrintInner fl indent v depth = .ok w ∧
      Spells v w) →
    ∃ x w c t, prettyMembers fl indent (key :: keys) (value :: values) depth i = .ok x ∧
      Spells value w ∧ Blank c ∧ MoreMembers Spells keys values t ∧
      x ++ close = indentStr indent (depth + 1) ++ (escapeString key ++ ([] ++ (colon ++
        (ascii [' '] ++ (w ++ (c ++ t))))))
  | [], [], key, value, i, _, h => by
    obtain ⟨w, hw, hspells⟩ := h value List.mem_cons_self (depth + 1)
    refine ⟨_, w, newline ++ close, [], by rw [prettyMembers, hw, ok_bind, prettyMembers, ok_bind],
      hspells, blank_newline.append hclose, .nil, ?_⟩
    simp
  | nextKey :: keys, next :: values, key, value, i, hlen, h => by
    obtain ⟨hvalue, h⟩ := List.forall_mem_cons.mp h
    obtain ⟨w, hw, hspells⟩ := hvalue (depth + 1)
    obtain ⟨x, w', c, t, hx, hspells', hc, hmore, heq⟩ :=
      more_prettyMembers fl indent depth hclose (i + 1) (Nat.succ_inj.mp hlen) h
    refine ⟨_, w, [], comma ++ ((newline ++ indentStr indent (depth + 1)) ++
      (escapeString nextKey ++ ([] ++ (colon ++ (ascii [' '] ++ (w' ++ (c ++ t))))))),
      by rw [prettyMembers, hw, ok_bind, hx, ok_bind], hspells, List.forall_mem_nil _,
      .cons (blank_newline.append (blank_indentStr _ _)) (List.forall_mem_nil _) blank_space
        hspells' hc hmore, ?_⟩
    simp [heq]

theorem spells_prettyPrintInner (fl : Floats F) (indent : ℤ) (hprint : Printable n value) :
    ∀ depth, ∃ w, prettyPrintInner fl indent value depth = .ok w ∧ Spells value w := by
  induction hprint with
  | null => exact fun _ => ⟨_, by rw [prettyPrintInner], .null⟩
  | bool b => exact fun _ => ⟨_, by rw [prettyPrintInner], .bool b⟩
  | int => exact fun _ => ⟨_, by rw [prettyPrintInner], .int _⟩
  | string s => exact fun _ => ⟨_, by rw [prettyPrintInner], .string s⟩
  | @array n items _ ih =>
    intro depth
    cases items with
    | nil => exact ⟨_, by rw [prettyPrintInner]; rfl, .emptyArray⟩
    | cons item items =>
      obtain ⟨x, w, c, t, hx, hspells, hc, hmore, heq⟩ :=
        more_prettyItems fl indent depth (blank_indentStr indent depth) ih
      refine ⟨_, ?_, .array (blank_newline.append (blank_indentStr indent (depth + 1))) hspells hc
        hmore⟩
      rw [prettyPrintInner, List.isEmpty_cons, if_neg Bool.false_ne_true, hx, ok_bind,
        List.append_assoc _ x, heq]
      simp
  | @object n keys values hlen _ ih =>
    intro depth
    cases keys with
    | nil =>
      obtain rfl := List.length_eq_zero_iff.mp hlen.symm
      exact ⟨_, by rw [prettyPrintInner]; rfl, .emptyObject⟩
    | cons key keys =>
      obtain ⟨value, values, rfl⟩ := List.exists_cons_of_length_eq_add_one hlen.symm
      obtain ⟨x, w, c, t, hx, hspells, hc, hmore, heq⟩ := more_prettyMembers fl indent depth
        (blank_indentStr indent depth) 0 (Nat.succ_inj.mp hlen) ih
      refine ⟨_, ?_, .object (blank_newline.append (blank_indentStr indent (depth + 1)))
        (List.forall_mem_nil _) blank_space hspells hc hmore⟩
      rw [prettyPrintInner, List.isEmpty_cons, if_neg Bool.false_ne_true, hx, ok_bind,
        List.append_assoc _ x, heq]
      simp

/-- What either printer writes is read back, and what is set is what is found. -/
theorem round_trips (fl : Floats F) :
    (∀ value, Printable 1000 value → (stringify fl value >>= parse fl) = .ok value ∧
      ∀ indent, (prettyPrint fl value indent >>= parse fl) = .ok value) ∧
    ∀ (keys : List Text) (values : List (JsonValue F)) (key : Text) (newVal : JsonValue F),
      keys.length = values.length → ∃ object,
        set (.object keys values) key newVal = .ok object ∧ get object key = .ok newVal ∧
        ∀ k ≠ key, get object k = get (.object keys values) k := by
  refine ⟨fun value hprint => ⟨?_, fun indent => ?_⟩, fun keys values key newVal hlen =>
    get_set hlen key newVal⟩
  · obtain ⟨w, hw, hspells⟩ := spells_stringify fl hprint
    rw [hw, ok_bind, parse_of_spells fl hprint hspells]
  · obtain ⟨w, hw, hspells⟩ := spells_prettyPrintInner fl indent hprint 0
    rw [prettyPrint, hw, ok_bind, parse_of_spells fl hprint hspells]

/-- Whole numbers for floats. -/
def wholeFloats : Floats ℤ where
  parse := parseInt
  eq x y := x == y
  inf := 2 ^ 1024
  negInf := -2 ^ 1024
  toInt x := x
  ofInt x := x
  toText x := toText x

/-- A repeated key, a control character, a quote, a backslash, a letter of two bytes and the
smallest integer. -/
def nestedValue : JsonValue ℤ :=
  .object [ascii ['k'], ascii ['k']]
    [.array [.string [8, 34, 92, 195, 169], .int (-2 ^ 63), .bool true], .null]

theorem round_trips_nested :
    (stringify wholeFloats nestedValue >>= parse wholeFloats) = .ok nestedValue ∧
    (prettyPrint wholeFloats nestedValue 2 >>= parse wholeFloats) = .ok nestedValue ∧
    ∃ object, set nestedValue (ascii ['n']) .null = .ok object ∧
      get object (ascii ['n']) = .ok .null ∧
      ∀ k ≠ ascii ['n'], get object k = get nestedValue k := by
  have hitems : ∀ v ∈ [JsonValue.string [8, 34, 92, 195, 169], .int (-2 ^ 63), .bool true],
      Printable 998 (v : JsonValue ℤ) := by
    simp only [List.forall_mem_cons]
    exact ⟨.string _, .int (by decide) (by decide), .bool _, List.forall_mem_nil _⟩
  have hprint : Printable 1000 nestedValue := by
    refine .object rfl ?_
    simp only [List.forall_mem_cons]
    exact ⟨.array hitems, .null, List.forall_mem_nil _⟩
  obtain ⟨hvalues, hset⟩ := round_trips wholeFloats
  exact ⟨(hvalues nestedValue hprint).1, (hvalues nestedValue hprint).2 2, hset _ _ _ _ rfl⟩

end Kryos.Stdlib.StdJson

import Kryos.Lib.ExactWord
import Kryos.Stdlib.Fmt

/-!
# Templates

`format` of `std.string` scans the template once and sends every piece to a string builder; `format`
of `std.fmt` makes one pass for each argument. Both of them are meant to put all arguments in at
once.

## Main results

* `substitute_eq` — what putting all arguments in at once does to the pieces of the template
* `simultaneous_iff` — when both functions do that, and never substitute inside of an argument
-/

namespace Kryos.Stdlib.Format

open Str Replace Decimal

/-! ## `format` of `std.string` -/

/-- What the scan meets: a byte, or digits in braces. -/
inductive Piece where
  | char (ch : UInt8)
  | braced (ds : Text)
  deriving DecidableEq, Repr

def Piece.text : Piece → Text
  | .char ch => [ch]
  | .braced ds => '\x7b'.toUInt8 :: (ds ++ ['\x7d'.toUInt8])

/-- The outer loop: where it takes digits for a placeholder, and where it goes on. -/
def scan : Text → List Piece
  | [] => []
  | ch :: rest =>
    let ds := rest.takeWhile isDigit
    if ch = '\x7b'.toUInt8 ∧ ds ≠ [] ∧ rest[ds.length]? = some '\x7d'.toUInt8 then
      .braced ds :: scan (rest.drop (ds.length + 1))
    else .char ch :: scan rest
termination_by template => template.length
decreasing_by
  · rw [List.length_drop, List.length_cons]
    omega
  · exact Nat.lt_succ_self _

/-- The index that the inner loop adds up. -/
def indexOf (ds : Text) : Int64 :=
  ds.foldl (fun idx b => idx * 10 + (Int64.ofNat b.toNat - 48)) 0

/-- `args[idx]`, which panics out of bounds -/
def itemAt (args : List Text) (idx : Int64) : Option Text :=
  if idx < 0 then none else args[idx.toInt.toNat]?

/-- What is appended for a piece. -/
def emit (args : List Text) : Piece → Option Text
  | .char ch => some [ch]
  | .braced ds =>
    let idx := indexOf ds
    if idx < Int64.ofNat args.length then itemAt args idx else some (Piece.braced ds).text

def format (template : Text) (args : List Text) : Option Text := do
  let pieces ← (scan template).mapM (emit args)
  return pieces.flatten

/-! ## Simultaneous substitution -/

/-- The placeholders of the arguments are replaced where they stand in the text. -/
def substitute (args : List Text) : Text → Text
  | [] => []
  | ch :: rest =>
    match (List.range args.length).find? fun n => Fmt.placeholder n <+: ch :: rest with
    | some n => args.getD n [] ++ substitute args (rest.drop ((Fmt.placeholder n).length - 1))
    | none => ch :: substitute args rest
termination_by template => template.length
decreasing_by
  · rw [List.length_drop, List.length_cons]
    omega
  · exact Nat.lt_succ_self _

/-- The same for a piece: a number in its canonical form, below the number of arguments. -/
def fill (args : List Text) : Piece → Text
  | .char ch => [ch]
  | .braced ds =>
    if ds = digits (value ds) then (args[value ds]?).getD (Piece.braced ds).text
    else (Piece.braced ds).text

section Scan

variable {args : List Text} {ch : UInt8} {rest s x : Text} {n k : ℕ}

theorem isDigit_brace : isDigit '\x7d'.toUInt8 = false ∧ isDigit '\x7b'.toUInt8 = false := by
  decide

/-- Digits behind a brace that are closed by another one. -/
theorem braced_split (h : rest[(rest.takeWhile isDigit).length]? = some '\x7d'.toUInt8) :
    rest = rest.takeWhile isDigit ++
      '\x7d'.toUInt8 :: rest.drop ((rest.takeWhile isDigit).length + 1) := by
  obtain ⟨hlt, hget⟩ := List.getElem?_eq_some_iff.mp h
  conv_lhs => rw [← List.take_append_drop (rest.takeWhile isDigit).length rest]
  rw [List.drop_eq_getElem_cons hlt, hget,
    ← List.prefix_iff_eq_take.mp (List.takeWhile_prefix isDigit)]

theorem takeWhile_digits (n : ℕ) (s : Text) :
    (digits n ++ '\x7d'.toUInt8 :: s).takeWhile isDigit = digits n := by
  rw [List.takeWhile_append_of_pos fun b hb => isDigit_of_mem_digits hb,
    List.takeWhile_cons_of_neg (by rw [isDigit_brace.1]; decide), List.append_nil]

theorem placeholder_prefix_iff :
    Fmt.placeholder n <+: ch :: rest ↔ ch = '\x7b'.toUInt8 ∧ rest.takeWhile isDigit = digits n ∧
      rest[(rest.takeWhile isDigit).length]? = some '\x7d'.toUInt8 := by
  constructor
  · rintro ⟨t, ht⟩
    obtain ⟨rfl, hrest⟩ := List.cons.inj ht
    have hrest' : rest = digits n ++ '\x7d'.toUInt8 :: t := by
      rw [← hrest]
      simp
    rw [hrest', takeWhile_digits]
    exact ⟨rfl, rfl, by simp⟩
  · rintro ⟨rfl, hds, hclose⟩
    have hsplit := braced_split hclose
    rw [hds] at hsplit
    refine ⟨rest.drop ((digits n).length + 1), ?_⟩
    conv_rhs => rw [hsplit]
    simp [Fmt.placeholder]

theorem placeholder_unique {m : ℕ} (hn : Fmt.placeholder n <+: s) (hm : Fmt.placeholder m <+: s) :
    m = n := by
  cases s with
  | nil => exact absurd hn (by rw [List.prefix_nil]; exact List.cons_ne_nil _ _)
  | cons ch rest =>
    have hds := (placeholder_prefix_iff.mp hn).2.1
    rw [(placeholder_prefix_iff.mp hm).2.1] at hds
    rw [← value_digits m, hds, value_digits]

theorem brace_not_mem {ds : Text} (hds : ∀ b ∈ ds, isDigit b = true) :
    '\x7b'.toUInt8 ∉ ds ++ ['\x7d'.toUInt8] := by
  rw [List.mem_append, List.mem_singleton, not_or]
  refine ⟨fun h => ?_, by decide⟩
  have := hds _ h
  rw [isDigit_brace.2] at this
  cases this

/-! ### Simultaneous substitution, piece by piece -/

theorem substitute_nil : substitute args [] = [] := by
  rw [substitute]

theorem substitute_cons (h : ∀ n < args.length, ¬Fmt.placeholder n <+: ch :: rest) :
    substitute args (ch :: rest) = ch :: substitute args rest := by
  have hnone : ((List.range args.length).find? fun n => Fmt.placeholder n <+: ch :: rest) = none :=
    List.find?_eq_none.mpr fun n hn => by
      rw [decide_eq_true_eq]
      exact h n (List.mem_range.mp hn)
  rw [substitute, hnone]

theorem substitute_append_of_not_mem (hx : '\x7b'.toUInt8 ∉ x) :
    substitute args (x ++ s) = x ++ substitute args s := by
  induction x with
  | nil => rfl
  | cons c x ih =>
    obtain ⟨hne, hx'⟩ := not_or.mp (mt List.mem_cons.mpr hx)
    rw [List.cons_append, substitute_cons, ih hx', List.cons_append]
    exact fun n _ h => hne (placeholder_prefix_iff.mp h).1.symm

theorem substitute_placeholder (hn : n < args.length) :
    substitute args (Fmt.placeholder n ++ s) = args[n] ++ substitute args s := by
  have hfind : ((List.range args.length).find? fun m =>
      Fmt.placeholder m <+: Fmt.placeholder n ++ s) = some n := by
    cases hfind : (List.range args.length).find? fun m =>
        Fmt.placeholder m <+: Fmt.placeholder n ++ s with
    | none =>
      have := List.find?_eq_none.mp hfind n (List.mem_range.mpr hn)
      rw [decide_eq_true_eq] at this
      exact absurd (List.prefix_append _ s) this
    | some m =>
      have hm := List.find?_some hfind
      rw [decide_eq_true_eq] at hm
      rw [placeholder_unique (List.prefix_append _ s) hm]
  have hdrop : (digits n ++ ['\x7d'.toUInt8] ++ s).drop ((Fmt.placeholder n).length - 1) = s := by
    exact List.drop_left
  rw [Fmt.placeholder, List.cons_append] at hfind ⊢
  rw [substitute, hfind]
  show args.getD n [] ++ substitute args _ = _
  rw [hdrop, List.getD_eq_getElem?_getD, List.getElem?_eq_getElem hn, Option.getD_some]

/-- Digits in braces, and what is behind them. -/
theorem scan_braced (h : ch = '\x7b'.toUInt8 ∧ rest.takeWhile isDigit ≠ [] ∧
    rest[(rest.takeWhile isDigit).length]? = some '\x7d'.toUInt8) :
    ch :: rest = (Piece.braced (rest.takeWhile isDigit)).text ++
      rest.drop ((rest.takeWhile isDigit).length + 1) := by
  obtain ⟨rfl, -, hclose⟩ := h
  conv_lhs => rw [braced_split hclose]
  simp [Piece.text]

theorem substitute_eq (args : List Text) (template : Text) :
    substitute args template = (scan template).flatMap (fill args) := by
  induction template using scan.induct with
  | case1 => rw [substitute_nil, scan, List.flatMap_nil]
  | case2 ch rest ds h ih =>
    have hdigits : ∀ b ∈ ds, isDigit b = true := List.all_eq_true.mp List.all_takeWhile
    have hfront (n : ℕ) (h : Fmt.placeholder n <+: ch :: rest) : ds = digits n :=
      (placeholder_prefix_iff.mp h).2.1
    rw [scan, if_pos h, List.flatMap_cons, ← ih]
    rw [scan_braced h] at hfront ⊢
    by_cases hn : ds = digits (value ds) ∧ value ds < args.length
    · have htext : (Piece.braced ds).text = Fmt.placeholder (value ds) := by
        conv_lhs => rw [hn.1]
        rfl
      rw [htext, substitute_placeholder hn.2, fill, if_pos hn.1, List.getElem?_eq_getElem hn.2,
        Option.getD_some]
    · have hfill : fill args (.braced ds) = (Piece.braced ds).text := by
        rw [fill]
        split_ifs with hcanon
        · rw [List.getElem?_eq_none (not_lt.mp fun hlt => hn ⟨hcanon, hlt⟩), Option.getD_none]
        · rfl
      rw [hfill, Piece.text, List.cons_append, substitute_cons,
        substitute_append_of_not_mem (brace_not_mem hdigits), List.cons_append]
      intro n hlt hn'
      have hds := hfront n hn'
      have hvalue : value ds = n := by rw [hds, value_digits]
      exact hn ⟨by rw [hvalue, hds], hvalue ▸ hlt⟩
  | case3 ch rest ds h ih =>
    rw [scan, if_neg h, List.flatMap_cons, fill, ← ih, List.singleton_append, substitute_cons]
    intro n _ hfront
    obtain ⟨hch, hds, hclose⟩ := placeholder_prefix_iff.mp hfront
    exact h ⟨hch, fun hnil => digits_ne_nil n (hds.symm.trans hnil), hclose⟩

/-- The occurrences of a placeholder are pieces of the template. -/
theorem occurrences_eq (k : ℕ) (template : Text) :
    occurrences (Fmt.placeholder k) template = (scan template).count (.braced (digits k)) := by
  induction template using scan.induct with
  | case1 => rw [scan, List.count_nil, occurrences]
  | case2 ch rest ds h ih =>
    have hdigits : ∀ b ∈ ds, isDigit b = true := List.all_eq_true.mp List.all_takeWhile
    have hfront (h : Fmt.placeholder k <+: ch :: rest) : ds = digits k :=
      (placeholder_prefix_iff.mp h).2.1
    rw [scan, if_pos h, List.count_cons, ← ih]
    rw [scan_braced h] at hfront ⊢
    by_cases hk : ds = digits k
    · have htext : (Piece.braced ds).text = Fmt.placeholder k :=
        congrArg (fun ds => (Piece.braced ds).text) hk
      rw [if_pos (beq_iff_eq.mpr (congrArg Piece.braced hk)), htext]
      exact occurrences_pattern (hk ▸ brace_not_mem hdigits)
    · rw [if_neg (fun h => hk (Piece.braced.inj (beq_iff_eq.mp h))), Nat.add_zero]
      rw [Piece.text, List.cons_append] at hfront ⊢
      rw [occurrences, if_neg (fun h => hk (hfront h)), Nat.zero_add]
      exact occurrences_append_of_not_mem (brace_not_mem hdigits)
  | case3 ch rest ds h ih =>
    rw [scan, if_neg h, List.count_cons, occurrences, ih, if_neg, if_neg, Nat.zero_add, Nat.add_zero]
    · exact fun h => by cases beq_iff_eq.mp h
    · intro hfront
      obtain ⟨hch, hds, hclose⟩ := placeholder_prefix_iff.mp hfront
      exact h ⟨hch, fun hnil => digits_ne_nil k (hds.symm.trans hnil), hclose⟩

/-! ### Rounds -/

/-- One more argument changes its own placeholder only. -/
theorem fill_take_succ {p : Piece} (hk : k < args.length) :
    p = .braced (digits k) ∧ fill (args.take k) p = Fmt.placeholder k ∧
        fill (args.take (k + 1)) p = args[k] ∨
      p ≠ .braced (digits k) ∧ fill (args.take (k + 1)) p = fill (args.take k) p := by
  by_cases hp : p = .braced (digits k)
  · subst hp
    refine .inl ⟨rfl, ?_, ?_⟩
    · rw [fill, if_pos (by rw [value_digits]), value_digits, List.getElem?_take_eq_none le_rfl]
      rfl
    · rw [fill, if_pos (by rw [value_digits]), value_digits,
        List.getElem?_take_of_lt (Nat.lt_succ_self k), List.getElem?_eq_getElem hk, Option.getD_some]
  · refine .inr ⟨hp, ?_⟩
    cases p with
    | char ch => rfl
    | braced ds =>
      rw [fill, fill]
      split_ifs with hcanon
      · have hne : value ds ≠ k := fun h => hp (by rw [hcanon, h])
        rcases Nat.lt_or_gt_of_ne hne with hlt | hgt
        · rw [List.getElem?_take_of_lt hlt, List.getElem?_take_of_lt (by omega)]
        · rw [List.getElem?_take_eq_none hgt.le, List.getElem?_take_eq_none (by omega)]
      · rfl

/-- A round replaces the pieces with its number, as long as nothing else looks like them. -/
theorem replaced_flatMap_fill (hk : k < args.length) (pieces : List Piece) :
    pieces.count (.braced (digits k)) ≤
        occurrences (Fmt.placeholder k) (pieces.flatMap (fill (args.take k))) ∧
      (occurrences (Fmt.placeholder k) (pieces.flatMap (fill (args.take k))) =
          pieces.count (.braced (digits k)) →
        replaced (Fmt.placeholder k) args[k] (pieces.flatMap (fill (args.take k))) =
          pieces.flatMap (fill (args.take (k + 1)))) := by
  have hnot : '\x7b'.toUInt8 ∉ digits k ++ ['\x7d'.toUInt8] :=
    brace_not_mem fun b hb => isDigit_of_mem_digits hb
  have hne : Fmt.placeholder k ≠ [] := List.cons_ne_nil _ _
  induction pieces with
  | nil => exact ⟨Nat.zero_le _, fun _ => replaced_nil⟩
  | cons p pieces ih =>
    obtain ⟨hle, hround⟩ := ih
    rw [List.flatMap_cons, List.flatMap_cons, List.count_cons]
    rcases fill_take_succ (p := p) hk with ⟨rfl, hbefore, hafter⟩ | ⟨hp, hsame⟩
    · have hocc : occurrences (Fmt.placeholder k)
          (Fmt.placeholder k ++ pieces.flatMap (fill (args.take k))) =
            occurrences (Fmt.placeholder k) (pieces.flatMap (fill (args.take k))) + 1 :=
        occurrences_pattern hnot
      rw [hbefore, hafter, hocc, if_pos (beq_self_eq_true _), replaced_pattern hne]
      exact ⟨by omega, fun h => by rw [hround (by omega)]⟩
    · rw [hsame, if_neg (fun h => hp (beq_iff_eq.mp h)), Nat.add_zero]
      have hgrow := occurrences_le_append (Fmt.placeholder k) (fill (args.take k) p)
        (pieces.flatMap (fill (args.take k)))
      refine ⟨hle.trans hgrow, fun h => ?_⟩
      rw [replaced_append_of_occurrences (by omega), hround (by omega)]

variable {template : Text}

theorem substitute_round (hk : k < args.length)
    (h : occurrences (Fmt.placeholder k) (substitute (args.take k) template) =
      occurrences (Fmt.placeholder k) template) :
    replaced (Fmt.placeholder k) args[k] (substitute (args.take k) template) =
      substitute (args.take (k + 1)) template := by
  rw [occurrences_eq k template] at h
  rw [substitute_eq] at h ⊢
  rw [substitute_eq]
  exact (replaced_flatMap_fill hk _).2 h

theorem substitute_no_args (template : Text) : substitute [] template = template := by
  induction template with
  | nil => exact substitute_nil
  | cons ch rest ih =>
    have hnone (n : ℕ) (hn : n < ([] : List Text).length) : ¬Fmt.placeholder n <+: ch :: rest :=
      absurd hn (Nat.not_lt_zero n)
    rw [substitute_cons hnone, ih]

theorem rounds_eq (hk : k ≤ args.length)
    (h : ∀ j < k, occurrences (Fmt.placeholder j) (substitute (args.take j) template) =
      occurrences (Fmt.placeholder j) template) :
    Fmt.rounds template args k = some (substitute (args.take k) template) := by
  induction k with
  | zero => rw [Fmt.rounds, List.take_zero, substitute_no_args]
  | succ k ih =>
    have hlt : k < args.length := hk
    rw [Fmt.rounds, ih hlt.le fun j hj => h j (Nat.lt_succ_of_lt hj)]
    show (args[k]?.bind fun arg => _) = _
    rw [List.getElem?_eq_getElem hlt, Option.bind_some,
      ← substitute_round hlt (h k (Nat.lt_succ_self k))]
    exact Fmt.replaceAll_eq (List.cons_ne_nil _ _)

/-! ### Numbers -/

theorem indexOf_eq {ds : Text} (hds : ∀ b ∈ ds, isDigit b = true) :
    indexOf ds = Int64.ofNat (value ds) := by
  have hfold (n : ℕ) : ds.foldl (fun idx b => idx * 10 + (Int64.ofNat b.toNat - 48))
      (Int64.ofNat n) = Int64.ofNat (ds.foldl (fun n b => 10 * n + (b.toNat - '0'.toNat)) n) := by
    induction ds generalizing n with
    | nil => rfl
    | cons b ds ih =>
      have hb : '0'.toNat ≤ b.toNat := by
        have := hds b List.mem_cons_self
        simp only [isDigit, Bool.and_eq_true, decide_eq_true_eq, UInt8.le_iff_toNat_le] at this
        exact this.1
      have hstep : Int64.ofNat n * 10 + (Int64.ofNat b.toNat - 48) =
          Int64.ofNat (10 * n + (b.toNat - '0'.toNat)) := by
        rw [Int64.ofNat_add, Int64.ofNat_mul, Int64.ofNat_sub _ _ hb, Int64.mul_comm]
        rfl
      rw [List.foldl_cons, List.foldl_cons, hstep, ih fun c hc => hds c (List.mem_cons_of_mem _ hc)]
  exact hfold 0

theorem isDigit_of_mem_scan {ds : Text} (h : .braced ds ∈ scan template) :
    ∀ b ∈ ds, isDigit b = true := by
  induction template using scan.induct with
  | case1 => rw [scan] at h; cases h
  | case2 ch rest ds' hcase ih =>
    rw [scan, if_pos hcase, List.mem_cons] at h
    rcases h with h | h
    · cases h
      exact List.all_eq_true.mp List.all_takeWhile
    · exact ih h
  | case3 ch rest ds' hcase ih =>
    rw [scan, if_neg hcase, List.mem_cons] at h
    exact ih (h.resolve_left nofun)

/-- A number that the code reads as it is written, that it takes for too large, or that happens to
name the same text. -/
def NumberKept (args : List Text) (ds : Text) : Prop :=
  ds = digits (value ds) ∧ value ds < 2 ^ 63 ∨
    ¬Int64.ofNat (value ds) < Int64.ofNat args.length ∨
    itemAt args (Int64.ofNat (value ds)) = some (Piece.braced ds).text

theorem emit_eq_iff {ds : Text} (hargs : args.length < 2 ^ 63) (hds : ∀ b ∈ ds, isDigit b = true) :
    emit args (.braced ds) = some (fill args (.braced ds)) ↔ NumberKept args ds := by
  rw [emit, indexOf_eq hds, NumberKept]
  have hlen := Int64.toInt_ofNat_of_lt hargs
  by_cases hcanon : ds = digits (value ds) ∧ value ds < 2 ^ 63
  · have hvalue := Int64.toInt_ofNat_of_lt hcanon.2
    have hbelow : Int64.ofNat (value ds) < Int64.ofNat args.length ↔ value ds < args.length := by
      rw [Int64.lt_iff_toInt_lt, hlen, hvalue, Nat.cast_lt]
    have hneg : ¬Int64.ofNat (value ds) < 0 := by
      rw [Int64.lt_iff_toInt_lt, hvalue, Int64.toInt_zero]
      omega
    refine iff_of_true ?_ (.inl hcanon)
    rw [fill, if_pos hcanon.1, itemAt, if_neg hneg, hvalue, Int.toNat_natCast]
    split_ifs with hlt
    · rw [List.getElem?_eq_getElem (hbelow.mp hlt), Option.getD_some]
    · rw [List.getElem?_eq_none (not_lt.mp (mt hbelow.mpr hlt)), Option.getD_none]
  · have hfill : fill args (.braced ds) = (Piece.braced ds).text := by
      rw [fill]
      split_ifs with h
      · have hbig : ¬value ds < 2 ^ 63 := fun hlt => hcanon ⟨h, hlt⟩
        rw [List.getElem?_eq_none (by omega), Option.getD_none]
      · rfl
    rw [hfill, or_iff_right hcanon]
    split_ifs with hlt
    · simp [hlt]
    · simp [hlt]

/-- Every number in braces is kept or replaced as it should be. -/
def NumbersKept (template : Text) (args : List Text) : Prop :=
  ∀ ds, .braced ds ∈ scan template → NumberKept args ds

/-- The arguments before a number, put in at once, form no new placeholder with that number. -/
def NothingFormed (template : Text) (args : List Text) : Prop :=
  ∀ k < args.length, occurrences (Fmt.placeholder k) (substitute (args.take k) template) =
    occurrences (Fmt.placeholder k) template

/-- Both functions return the template with all arguments put in at once: the scan appends for every
piece what belongs there, and no pass finds a placeholder that is not in the template. -/
structure Simultaneous (template : Text) (args : List Text) : Prop where
  format_eq : format template args = some (substitute args template)
  emit_eq : ∀ p ∈ scan template, emit args p = some (fill args p)
  fmt_eq : Fmt.format template args = some (substitute args template)
  rounds_eq : ∀ k < args.length, ∃ text, Fmt.rounds template args k = some text ∧
    occurrences (Fmt.placeholder k) text = occurrences (Fmt.placeholder k) template

theorem emit_eq_fill_iff (hargs : args.length < 2 ^ 63) :
    (∀ p ∈ scan template, emit args p = some (fill args p)) ↔ NumbersKept template args := by
  constructor
  · intro h ds hds
    exact (emit_eq_iff hargs (isDigit_of_mem_scan hds)).mp (h _ hds)
  · intro h p hp
    cases p with
    | char ch => rfl
    | braced ds => exact (emit_eq_iff hargs (isDigit_of_mem_scan hp)).mpr (h ds hp)

theorem mapM_emit {pieces : List Piece} (h : ∀ p ∈ pieces, emit args p = some (fill args p)) :
    pieces.mapM (emit args) = some (pieces.map (fill args)) := by
  induction pieces with
  | nil => rfl
  | cons p pieces ih =>
    rw [List.mapM_cons, h p List.mem_cons_self, ih fun q hq => h q (List.mem_cons_of_mem _ hq)]
    rfl

theorem format_of_emit_eq (h : ∀ p ∈ scan template, emit args p = some (fill args p)) :
    format template args = some (substitute args template) := by
  rw [format, mapM_emit h, substitute_eq]
  rfl

theorem rounds_exact_iff :
    (∀ k < args.length, ∃ text, Fmt.rounds template args k = some text ∧
      occurrences (Fmt.placeholder k) text = occurrences (Fmt.placeholder k) template) ↔
      NothingFormed template args := by
  constructor
  · intro h k
    induction k using Nat.strongRecOn with
    | ind k ih =>
      intro hk
      obtain ⟨text, heq, hocc⟩ := h k hk
      rw [Format.rounds_eq hk.le fun j hj => ih j hj (hj.trans hk)] at heq
      cases heq
      exact hocc
  · intro h k hk
    exact ⟨_, Format.rounds_eq hk.le fun j hj => h j (hj.trans hk), h k hk⟩

/-- Both functions put all arguments in at once if and only if the numbers in the braces are kept
and the passes form no placeholders. -/
theorem simultaneous_iff {template : Text} (hargs : args.length < 2 ^ 63) :
    Simultaneous template args ↔ NumbersKept template args ∧ NothingFormed template args := by
  constructor
  · rintro ⟨-, hemit, -, hrounds⟩
    exact ⟨(emit_eq_fill_iff hargs).mp hemit, rounds_exact_iff.mp hrounds⟩
  · rintro ⟨hnumbers, hformed⟩
    have hemit := (emit_eq_fill_iff hargs).mpr hnumbers
    refine ⟨format_of_emit_eq hemit, hemit, ?_, rounds_exact_iff.mpr hformed⟩
    rw [Fmt.format, Format.rounds_eq le_rfl hformed, List.take_length]

theorem simultaneous_swap :
    Simultaneous (ascii ['a', '\x7b', '1', '\x7d', '\x7b', '0', '\x7d']) [ascii ['\x7b'], []] := by
  have hscan : scan (ascii ['a', '\x7b', '1', '\x7d', '\x7b', '0', '\x7d']) =
      [.char 'a'.toUInt8, .braced ['1'.toUInt8], .braced ['0'.toUInt8]] := by
    decide +kernel
  refine (simultaneous_iff (by decide)).mpr ⟨fun ds hds => .inl ?_, fun k hk => ?_⟩
  · rw [hscan] at hds
    rcases List.mem_cons.mp hds with h | h
    · cases h
    · rcases List.mem_cons.mp h with h | h
      · cases h
        decide +kernel
      · cases List.mem_singleton.mp h
        decide +kernel
  · match k, hk with
    | 0, _ => decide +kernel
    | 1, _ => decide +kernel

/-- An argument that is substituted again, and a number that wraps around. -/
theorem substitutes_again :
    Fmt.format (ascii ['\x7b', '0', '\x7d']) [ascii ['\x7b', '1', '\x7d'], ascii ['X']] =
        some (ascii ['X']) ∧
      substitute [ascii ['\x7b', '1', '\x7d'], ascii ['X']] (ascii ['\x7b', '0', '\x7d']) =
        ascii ['\x7b', '1', '\x7d'] ∧
      format (Fmt.placeholder 18446744073709551616) [ascii ['X']] = some (ascii ['X']) ∧
      format (Fmt.placeholder 9223372036854775808) [] = none := by
  decide +kernel

end Scan

end Kryos.Stdlib.Format

import Kryos.Lib.VariantLoop
import Kryos.Stdlib.Str

/-!
# Comma-separated values

The parser is one loop over the bytes of a document. What stands between two special bytes is sent
to the builder of the field in one piece, when the next special byte is met.

## Main results

* `parse_eq` — the loop, as a recursion on what is left of the document
* `parse_serialize` — what is read back from a printed document
* `csvRight_iff` — the rows are read back unless one of them has a single empty field
-/

namespace Kryos.Stdlib.Csv

open Str Segments VariantLoop

abbrev quote : UInt8 := 34
abbrev comma : UInt8 := 44
abbrev lf : UInt8 := 10
abbrev cr : UInt8 := 13

/-- The fields of a row. -/
abbrev CsvRow := List Text

/-! ## The parser -/

structure Parser where
  rows : List CsvRow
  fields : List Text
  curSb : Text
  curHas : Bool
  runStart : ℕ
  inQuotes : Bool
  i : ℕ
  rowHasContent : Bool
  deriving DecidableEq, Repr

/-- `if i > run_start` at every special byte and at the end -/
def flush (input : Text) (p : Parser) : Option Parser :=
  if p.i > p.runStart then
    (substring input p.runStart p.i).toOption.map fun run =>
      { p with curSb := p.curSb ++ run, curHas := true }
  else some p

def quotedStep (input : Text) (c : UInt8) (p : Parser) : Option Parser :=
  if c = quote then do
    let p ← flush input p
    if p.i + 1 < input.length ∧ input[p.i + 1]? = some quote then
      return { p with curSb := p.curSb ++ [quote], curHas := true, i := p.i + 2, runStart := p.i + 2 }
    else return { p with inQuotes := false, i := p.i + 1, runStart := p.i + 1 }
  else some { p with i := p.i + 1 }

def bareStep (input : Text) (c : UInt8) (p : Parser) : Option Parser :=
  if c = quote ∧ p.curHas = false ∧ p.runStart = p.i then
    some { p with inQuotes := true, rowHasContent := true, i := p.i + 1, runStart := p.i + 1 }
  else if c = quote then do
    let p ← flush input p
    return { p with
      curSb := p.curSb ++ [quote]
      curHas := true
      rowHasContent := true
      i := p.i + 1
      runStart := p.i + 1 }
  else if c = comma then do
    let p ← flush input p
    return { p with
      fields := p.fields ++ [p.curSb]
      curSb := []
      curHas := false
      rowHasContent := true
      i := p.i + 1
      runStart := p.i + 1 }
  else if c = lf ∨ c = cr then do
    let p ← flush input p
    let i := if c = cr ∧ p.i + 1 < input.length ∧ input[p.i + 1]? = some lf then p.i + 2 else p.i + 1
    let fields := if p.rowHasContent ∨ p.curHas ∨ p.fields.length > 0 then p.fields ++ [p.curSb]
      else p.fields
    return { p with
      rows := p.rows ++ [fields]
      fields := []
      curSb := []
      curHas := false
      rowHasContent := false
      i := i
      runStart := i }
  else some { p with rowHasContent := true, i := p.i + 1 }

def step (input : Text) (p : Parser) : Option (Parser ⊕ List CsvRow) :=
  if h : p.i < input.length then
    if p.inQuotes then (quotedStep input input[p.i] p).map .inl
    else (bareStep input input[p.i] p).map .inl
  else do
    let p ← flush input p
    if p.rowHasContent ∨ p.curHas ∨ p.fields.length > 0 then
      return .inr (p.rows ++ [p.fields ++ [p.curSb]])
    else return .inr p.rows

def parse (input : Text) : Option (List CsvRow) :=
  iterate (step input) (input.length + 1) ⟨[], [], [], false, 0, false, 0, false⟩

/-! ## The printer -/

def needsQuoting (field : Text) : Bool :=
  field.any fun c => c = comma ∨ c = quote ∨ c = lf ∨ c = cr

/-- What is appended for a field. -/
def printField (f : Text) : Text :=
  if needsQuoting f then
    quote :: ((f.flatMap fun c => if c = quote then [quote, quote] else [c]) ++ [quote])
  else f

/-- The fields from the given index on. -/
def printFields (idx : ℕ) : List Text → Text
  | [] => []
  | f :: fields => (if idx > 0 then [comma] else []) ++ printField f ++ printFields (idx + 1) fields

def toLine (fields : List Text) : Text := printFields 0 fields

def serialize (rows : List CsvRow) : Text := rows.flatMap fun row => toLine row ++ [lf]

/-! ## The loop as a recursion -/

/-- The rows and fields that are done, the field that has been begun, and whether its row has
content. -/
structure Doc where
  rows : List CsvRow
  fields : List Text
  cur : Text
  started : Bool

namespace Doc

def put (d : Doc) (c : UInt8) : Doc := { d with cur := d.cur ++ [c] }

def start (d : Doc) : Doc := { d with started := true }

def endField (d : Doc) : Doc :=
  { d with fields := d.fields ++ [d.cur], cur := [], started := true }

/-- The fields of the row, if it is not blank. -/
def row (d : Doc) : List Text :=
  if d.started = true ∨ d.cur ≠ [] ∨ d.fields ≠ [] then d.fields ++ [d.cur] else []

def endRow (d : Doc) : Doc := ⟨d.rows ++ [d.row], [], [], false⟩

def finish (d : Doc) : List CsvRow :=
  if d.started = true ∨ d.cur ≠ [] ∨ d.fields ≠ [] then d.rows ++ [d.row] else d.rows

end Doc

/-- What the loop makes of the rest of a document. -/
def parseRest : Bool → Doc → Text → List CsvRow
  | _, d, [] => d.finish
  | true, d, c :: rest =>
    if c = quote then
      if rest.head? = some quote then parseRest true (d.put quote) rest.tail
      else parseRest false d rest
    else parseRest true (d.put c) rest
  | false, d, c :: rest =>
    if c = quote then
      if d.cur = [] then parseRest true d.start rest else parseRest false (d.put quote).start rest
    else if c = comma then parseRest false d.endField rest
    else if c = lf ∨ c = cr then
      if c = cr ∧ rest.head? = some lf then parseRest false d.endRow rest.tail
      else parseRest false d.endRow rest
    else parseRest false (d.put c).start rest
termination_by _ _ rest => rest.length
decreasing_by
  all_goals
    simp only [List.length_cons, List.length_tail]
    omega

/-- The document as far as the loop has come: the run that has not been flushed counts. -/
def Parser.doc (input : Text) (p : Parser) : Doc :=
  ⟨p.rows, p.fields, p.curSb ++ slice input p.runStart p.i, p.rowHasContent⟩

structure Parser.Ok (input : Text) (p : Parser) : Prop where
  run_le : p.runStart ≤ p.i
  le_length : p.i ≤ input.length
  curHas_iff : p.curHas = true ↔ p.curSb ≠ []

variable {input : Text} {p : Parser}

theorem flush_eq (h : p.Ok input) :
    ∃ curHas, flush input p = some { p with curSb := (p.doc input).cur, curHas := curHas } ∧
      (curHas = true ↔ (p.doc input).cur ≠ []) := by
  rw [flush]
  by_cases hrun : p.i > p.runStart
  · rw [if_pos hrun, substring_ok h.run_le h.le_length]
    refine ⟨true, rfl, iff_of_true rfl fun hnil => ?_⟩
    have hlen := congrArg List.length (List.append_eq_nil_iff.mp hnil).2
    rw [length_slice, List.length_nil, Nat.min_eq_left h.le_length] at hlen
    omega
  · have hEq : p.i = p.runStart := by
      have := h.run_le
      omega
    have hcur : (p.doc input).cur = p.curSb := by
      rw [Parser.doc, hEq, slice_self, List.append_nil]
    rw [if_neg hrun, hcur]
    exact ⟨p.curHas, rfl, h.curHas_iff⟩

theorem next_iff {i : ℕ} {x : UInt8} :
    i + 1 < input.length ∧ input[i + 1]? = some x ↔ (input.drop (i + 1)).head? = some x := by
  rw [List.head?_drop, and_iff_right_iff_imp]
  intro h
  exact (List.getElem?_eq_some_iff.mp h).1

/-- What the rest of the loop makes of the document from here. -/
def Parser.rest (input : Text) (p : Parser) : List CsvRow :=
  parseRest p.inQuotes (p.doc input) (input.drop p.i)

/-- A step goes on, and the rest of the loop makes the same of the document. -/
def Advances (input : Text) (p p' : Parser) : Prop :=
  p'.Ok input ∧ p.i < p'.i ∧ p'.rest input = p.rest input

/-- Behind a special byte, nothing is left to be flushed. -/
theorem advances_behind {rows : List CsvRow} {fields : List Text} {curSb : Text}
    {curHas started q : Bool} {i : ℕ} (hlt : p.i < i) (hi : i ≤ input.length)
    (hcur : curHas = true ↔ curSb ≠ [])
    (hrest : parseRest q ⟨rows, fields, curSb, started⟩ (input.drop i) = p.rest input) :
    Advances input p ⟨rows, fields, curSb, curHas, i, q, i, started⟩ := by
  have hdoc : Parser.doc input ⟨rows, fields, curSb, curHas, i, q, i, started⟩ =
      ⟨rows, fields, curSb, started⟩ := by
    rw [Parser.doc, slice_self, List.append_nil]
  exact ⟨⟨le_rfl, hi, hcur⟩, hlt, by rw [Parser.rest, hdoc, hrest]⟩

/-- Another byte stays in the run. -/
theorem advances_run (h : p.Ok input) (hi : p.i < input.length) (started : Bool)
    (hrest : parseRest p.inQuotes { (p.doc input).put input[p.i] with started := started }
      (input.drop (p.i + 1)) = p.rest input) :
    Advances input p { p with rowHasContent := started, i := p.i + 1 } := by
  have hslice : slice input p.runStart (p.i + 1) = slice input p.runStart p.i ++ [input[p.i]] := by
    rw [← slice_append_slice h.run_le (Nat.le_succ p.i), slice_eq_cons (Nat.lt_succ_self p.i) hi,
      slice_self]
  have hdoc : Parser.doc input { p with rowHasContent := started, i := p.i + 1 } =
      { (p.doc input).put input[p.i] with started := started } := by
    rw [Parser.doc, Doc.put, hslice, ← List.append_assoc]
    rfl
  exact ⟨⟨Nat.le_succ_of_le h.run_le, hi, h.curHas_iff⟩, Nat.lt_succ_self _,
    by rw [Parser.rest, hdoc, hrest]⟩

theorem quotedStep_advances (h : p.Ok input) (hi : p.i < input.length) (hq : p.inQuotes = true) :
    ∃ p', quotedStep input input[p.i] p = some p' ∧ Advances input p p' := by
  have hrest : p.rest input =
      parseRest true (p.doc input) (input[p.i] :: input.drop (p.i + 1)) := by
    rw [Parser.rest, hq, List.drop_eq_getElem_cons hi]
  rw [quotedStep]
  by_cases hc : input[p.i] = quote
  · obtain ⟨curHas, hflush, hcur⟩ := flush_eq h
    rw [if_pos hc, hflush]
    by_cases hnext : p.i + 1 < input.length ∧ input[p.i + 1]? = some quote
    · have hlt : p.i < p.i + 2 := by omega
      refine ⟨_, if_pos hnext, advances_behind hlt hnext.1 (by simp) ?_⟩
      rw [hrest, parseRest, if_pos hc, if_pos (next_iff.mp hnext), List.tail_drop, hq]
      rfl
    · refine ⟨_, if_neg hnext, advances_behind (Nat.lt_succ_self _) hi hcur ?_⟩
      rw [hrest, parseRest, if_pos hc, if_neg (mt next_iff.mpr hnext)]
      rfl
  · refine ⟨_, if_neg hc, advances_run h hi p.rowHasContent ?_⟩
    rw [hrest, parseRest, if_neg hc, hq]
    rfl

theorem opens_iff (h : p.Ok input) :
    p.curHas = false ∧ p.runStart = p.i ↔ (p.doc input).cur = [] := by
  rw [Parser.doc, List.append_eq_nil_iff, ← Bool.not_eq_true, h.curHas_iff, not_not,
    ← List.length_eq_zero_iff (l := slice _ _ _), length_slice, Nat.min_eq_left h.le_length]
  have := h.run_le
  constructor <;> rintro ⟨hsb, hrun⟩ <;> exact ⟨hsb, by omega⟩

theorem content_iff {curHas : Bool} (hcur : curHas = true ↔ (p.doc input).cur ≠ []) :
    p.rowHasContent = true ∨ curHas = true ∨ p.fields.length > 0 ↔
      (p.doc input).started = true ∨ (p.doc input).cur ≠ [] ∨ (p.doc input).fields ≠ [] := by
  rw [hcur, gt_iff_lt, List.length_pos_iff]
  rfl

theorem row_eq {curHas : Bool} (hcur : curHas = true ↔ (p.doc input).cur ≠ []) :
    (if p.rowHasContent = true ∨ curHas = true ∨ p.fields.length > 0 then
      p.fields ++ [(p.doc input).cur] else p.fields) = (p.doc input).row := by
  rw [Doc.row]
  simp only [content_iff hcur]
  split_ifs with hcontent
  · rfl
  · exact not_not.mp fun hne => hcontent (.inr (.inr hne))

theorem bareStep_advances (h : p.Ok input) (hi : p.i < input.length) (hq : p.inQuotes = false) :
    ∃ p', bareStep input input[p.i] p = some p' ∧ Advances input p p' := by
  have hrest : p.rest input =
      parseRest false (p.doc input) (input[p.i] :: input.drop (p.i + 1)) := by
    rw [Parser.rest, hq, List.drop_eq_getElem_cons hi]
  obtain ⟨curHas, hflush, hcur⟩ := flush_eq h
  have hlt := Nat.lt_succ_self p.i
  have hnil : false = true ↔ ([] : Text) ≠ [] := by simp
  rw [bareStep, hflush]
  by_cases hc : input[p.i] = quote
  · by_cases hfirst : (p.doc input).cur = []
    · obtain ⟨hhas, hrun⟩ := (opens_iff h).mpr hfirst
      refine ⟨_, if_pos ⟨hc, hhas, hrun⟩, advances_behind hlt hi h.curHas_iff ?_⟩
      have hdoc : (p.doc input).start = ⟨p.rows, p.fields, p.curSb, true⟩ := by
        rw [Doc.start, Parser.doc, hrun, slice_self, List.append_nil]
      rw [hrest, parseRest, if_pos hc, if_pos hfirst, hdoc]
    · have hopen : ¬(input[p.i] = quote ∧ p.curHas = false ∧ p.runStart = p.i) :=
        fun hopen => hfirst ((opens_iff h).mp hopen.2)
      rw [if_neg hopen, if_pos hc]
      refine ⟨_, rfl, advances_behind hlt hi (by simp) ?_⟩
      rw [hrest, parseRest, if_pos hc, if_neg hfirst, hq]
      rfl
  · rw [if_neg (fun hopen => hc hopen.1), if_neg hc]
    by_cases hcomma : input[p.i] = comma
    · rw [if_pos hcomma]
      refine ⟨_, rfl, advances_behind hlt hi hnil ?_⟩
      rw [hrest, parseRest, if_neg hc, if_pos hcomma, hq]
      rfl
    · rw [if_neg hcomma]
      by_cases hend : input[p.i] = lf ∨ input[p.i] = cr
      · rw [if_pos hend]
        by_cases hcrlf : input[p.i] = cr ∧ p.i + 1 < input.length ∧ input[p.i + 1]? = some lf
        · have hlt' : p.i < p.i + 2 := by omega
          refine ⟨⟨p.rows ++ [(p.doc input).row], [], [], false, p.i + 2, p.inQuotes, p.i + 2, false⟩,
            ?_, advances_behind hlt' hcrlf.2.1 hnil ?_⟩
          · show some _ = some _
            rw [if_pos hcrlf, row_eq hcur]
          · rw [hrest, parseRest, if_neg hc, if_neg hcomma, if_pos hend,
              if_pos ⟨hcrlf.1, next_iff.mp hcrlf.2⟩, List.tail_drop, hq]
            rfl
        · refine ⟨⟨p.rows ++ [(p.doc input).row], [], [], false, p.i + 1, p.inQuotes, p.i + 1, false⟩,
            ?_, advances_behind hlt hi hnil ?_⟩
          · show some _ = some _
            rw [if_neg hcrlf, row_eq hcur]
          · rw [hrest, parseRest, if_neg hc, if_neg hcomma, if_pos hend,
              if_neg (fun h => hcrlf ⟨h.1, next_iff.mpr h.2⟩), hq]
            rfl
      · rw [if_neg hend]
        refine ⟨_, rfl, advances_run h hi true ?_⟩
        rw [hrest, parseRest, if_neg hc, if_neg hcomma, if_neg hend, hq]
        rfl

/-- One round of the loop. -/
theorem step_spec (h : p.Ok input) :
    (∃ p', step input p = some (.inl p') ∧ Advances input p p') ∨
      step input p = some (.inr (p.rest input)) := by
  rw [step]
  by_cases hi : p.i < input.length
  · rw [dif_pos hi]
    cases hq : p.inQuotes with
    | true =>
      obtain ⟨p', heq, hadv⟩ := quotedStep_advances h hi hq
      rw [if_pos rfl, heq]
      exact .inl ⟨p', rfl, hadv⟩
    | false =>
      obtain ⟨p', heq, hadv⟩ := bareStep_advances h hi hq
      rw [if_neg Bool.false_ne_true, heq]
      exact .inl ⟨p', rfl, hadv⟩
  · obtain ⟨curHas, hflush, hcur⟩ := flush_eq h
    have hrest : p.rest input = (p.doc input).finish := by
      rw [Parser.rest, List.drop_eq_nil_of_le (not_lt.mp hi), parseRest]
    rw [dif_neg hi, hflush, hrest, Doc.finish]
    right
    show (if _ then _ else _) = _
    simp only [content_iff hcur]
    split_ifs with hcontent
    · rw [Doc.row, if_pos hcontent]
      rfl
    · rfl

/-- The loop ends, and is the recursion. -/
theorem parse_eq (input : Text) :
    parse input = some (parseRest false ⟨[], [], [], false⟩ input) := by
  have hrounds : ∃ rows, parse input = some rows ∧
      rows = parseRest false ⟨[], [], [], false⟩ input := by
    refine iterate_spec (I := fun p => Parser.Ok input p ∧
        p.rest input = parseRest false ⟨[], [], [], false⟩ input)
      (fun p => input.length - p.i) (fun p hp => ?_) ⟨⟨le_rfl, Nat.zero_le _, by simp⟩, ?_⟩
      (Nat.lt_succ_of_le (Nat.sub_le _ _))
    · rcases step_spec hp.1 with ⟨p', heq, hok, hlt, hrest⟩ | heq
      · have hle := hok.le_length
        exact .inl ⟨p', heq, ⟨hok, hrest.trans hp.2⟩, by omega⟩
      · exact .inr ⟨_, heq, hp.2⟩
    · rw [Parser.rest, Parser.doc, slice_self]
      rfl
  obtain ⟨rows, heq, hrows⟩ := hrounds
  rw [heq, hrows]

/-! ## Printed documents -/

section Print

variable {d : Doc} {f rest : Text} {rows : List CsvRow} {fields : List Text}

theorem parseRest_body (d : Doc) (f rest : Text) :
    parseRest true d ((f.flatMap fun c => if c = quote then [quote, quote] else [c]) ++ rest) =
      parseRest true { d with cur := d.cur ++ f } rest := by
  induction f generalizing d with
  | nil => rw [List.flatMap_nil, List.nil_append, List.append_nil]
  | cons c f ih =>
    have hput : { d.put c with cur := (d.put c).cur ++ f } = { d with cur := d.cur ++ c :: f } := by
      rw [Doc.put, List.append_assoc, List.singleton_append]
    rw [List.flatMap_cons]
    by_cases hc : c = quote
    · subst hc
      rw [if_pos rfl, List.append_assoc, ← hput, ← ih]
      show parseRest true d (quote :: quote :: _) = _
      rw [parseRest, if_pos rfl, List.head?_cons, if_pos rfl, List.tail_cons]
      rfl
    · rw [if_neg hc, List.append_assoc, List.singleton_append, parseRest, if_neg hc, ih, hput]

theorem parseRest_bare (hf : needsQuoting f = false) (d : Doc) (rest : Text) :
    parseRest false d (f ++ rest) =
      parseRest false ⟨d.rows, d.fields, d.cur ++ f, d.started || decide (f ≠ [])⟩ rest := by
  induction f generalizing d with
  | nil => simp
  | cons c f ih =>
    rw [needsQuoting, List.any_cons, Bool.or_eq_false_iff, decide_eq_false_iff_not] at hf
    obtain ⟨hcomma, hquote, hlf, hcr⟩ : c ≠ comma ∧ c ≠ quote ∧ c ≠ lf ∧ c ≠ cr := by
      simpa only [not_or] using hf.1
    rw [List.cons_append, parseRest, if_neg hquote, if_neg hcomma, if_neg (by simp [hlf, hcr]),
      ih hf.2]
    simp [Doc.put, Doc.start]

/-- A printed field, before anything but a quote. -/
theorem parseRest_printField (hd : d.cur = []) (hrest : rest.head? ≠ some quote) :
    parseRest false d (printField f ++ rest) =
      parseRest false ⟨d.rows, d.fields, f, d.started || decide (f ≠ [])⟩ rest := by
  rw [printField]
  split_ifs with hquoting
  · have hne : f ≠ [] := by
      rintro rfl
      cases hquoting
    rw [List.cons_append, parseRest, if_pos rfl, if_pos hd, List.append_assoc, parseRest_body,
      List.singleton_append, parseRest, if_pos rfl, if_neg hrest, Doc.start, hd]
    simp [hne]
  · rw [parseRest_bare (Bool.eq_false_iff.mpr hquoting), hd, List.nil_append]

theorem head?_printFields {idx : ℕ} (hidx : 0 < idx) (fields : List Text) (rest : Text) :
    (printFields idx fields ++ lf :: rest).head? ≠ some quote := by
  have hlf : lf ≠ quote := by decide
  have hcomma : comma ≠ quote := by decide
  cases fields with
  | nil => simp [printFields, hlf]
  | cons f fields => simp [printFields, hidx, hcomma]

/-- The fields behind the first one of a line. -/
theorem parseRest_printFields {idx : ℕ} (hidx : 0 < idx) (d : Doc) (fs : List Text) (rest : Text) :
    parseRest false d (printFields idx fs ++ lf :: rest) =
      parseRest false
        ⟨d.rows ++ [if fs = [] then d.row else d.fields ++ d.cur :: fs], [], [], false⟩ rest := by
  induction fs generalizing idx d with
  | nil =>
    rw [printFields, List.nil_append, parseRest, if_neg (by decide), if_neg (by decide),
      if_pos (.inl rfl), if_neg (fun h => absurd h.1 (by decide)), if_pos rfl]
    rfl
  | cons f fs ih =>
    have hcomma : printFields idx (f :: fs) ++ lf :: rest =
        comma :: (printField f ++ (printFields (idx + 1) fs ++ lf :: rest)) := by
      simp [printFields, hidx]
    rw [hcomma, parseRest, if_neg (by decide), if_pos rfl,
      parseRest_printField rfl (head?_printFields (Nat.succ_pos idx) fs rest),
      ih (Nat.succ_pos idx), if_neg (List.cons_ne_nil _ _)]
    by_cases hfs : fs = []
    · subst hfs
      simp [Doc.endField, Doc.row]
    · simp [Doc.endField, hfs]

/-- What is read back from a line. -/
def readRow (row : CsvRow) : CsvRow := if row = [[]] then [] else row

theorem parseRest_toLine (rows : List CsvRow) (row : CsvRow) (rest : Text) :
    parseRest false ⟨rows, [], [], false⟩ (toLine row ++ lf :: rest) =
      parseRest false ⟨rows ++ [readRow row], [], [], false⟩ rest := by
  cases row with
  | nil =>
    rw [toLine, printFields, List.nil_append, parseRest, if_neg (by decide), if_neg (by decide),
      if_pos (.inl rfl), if_neg (fun h => absurd h.1 (by decide))]
    rfl
  | cons f fs =>
    have hfirst : toLine (f :: fs) ++ lf :: rest =
        printField f ++ (printFields 1 fs ++ lf :: rest) := by
      simp [toLine, printFields]
    rw [hfirst, parseRest_printField rfl (head?_printFields Nat.one_pos fs rest),
      parseRest_printFields Nat.one_pos]
    by_cases hfs : fs = []
    · subst hfs
      by_cases hf : f = []
      · subst hf
        simp [Doc.row, readRow]
      · simp [Doc.row, readRow, hf]
    · simp [readRow, hfs]

theorem parseRest_serialize (before rows : List CsvRow) :
    parseRest false ⟨before, [], [], false⟩ (serialize rows) = before ++ rows.map readRow := by
  induction rows generalizing before with
  | nil =>
    rw [serialize, List.flatMap_nil, parseRest, List.map_nil, List.append_nil]
    rfl
  | cons row rows ih =>
    rw [serialize, List.flatMap_cons, List.append_assoc, List.singleton_append, parseRest_toLine]
    show parseRest false _ (serialize rows) = _
    rw [ih, List.map_cons, List.append_assoc, List.singleton_append]

theorem parse_serialize (rows : List CsvRow) : parse (serialize rows) = some (rows.map readRow) := by
  rw [parse_eq, parseRest_serialize, List.nil_append]

end Print

/-! ## What belongs to the fields -/

inductive Mode where
  | start
  | bare
  | quoted
  deriving DecidableEq

/-- The bytes that are neither separators nor enclosing quotes, with one quote of every doubled
pair. -/
def content : Mode → Text → Text
  | _, [] => []
  | .start, c :: rest =>
    if c = quote then content .quoted rest
    else if c = comma ∨ c = lf ∨ c = cr then content .start rest
    else c :: content .bare rest
  | .bare, c :: rest =>
    if c = comma ∨ c = lf ∨ c = cr then content .start rest else c :: content .bare rest
  | .quoted, c :: rest =>
    if c = quote then
      if rest.head? = some quote then quote :: content .quoted rest.tail else content .bare rest
    else c :: content .quoted rest
termination_by _ rest => rest.length
decreasing_by
  all_goals
    simp only [List.length_cons, List.length_tail]
    omega

section Content

variable {d : Doc} {rest : Text} {c : UInt8}

def Doc.text (d : Doc) : Text := d.rows.flatten.flatten ++ d.fields.flatten ++ d.cur

@[simp] theorem Doc.text_put (d : Doc) (c : UInt8) : (d.put c).text = d.text ++ [c] := by
  simp [Doc.text, Doc.put]

@[simp] theorem Doc.text_start (d : Doc) : d.start.text = d.text := rfl

@[simp] theorem Doc.text_endField (d : Doc) : d.endField.text = d.text := by
  simp [Doc.text, Doc.endField]

theorem Doc.flatten_row (d : Doc) : d.row.flatten = d.fields.flatten ++ d.cur := by
  rw [Doc.row]
  split_ifs with hcontent
  · simp
  · obtain ⟨-, hcur⟩ := not_or.mp hcontent
    obtain ⟨hcur, hfields⟩ := not_or.mp hcur
    rw [not_not.mp hcur, not_not.mp hfields]
    rfl

@[simp] theorem Doc.text_endRow (d : Doc) : d.endRow.text = d.text := by
  simp [Doc.text, Doc.endRow, Doc.flatten_row]

theorem Doc.flatten_finish (d : Doc) : d.finish.flatten.flatten = d.text := by
  rw [Doc.finish]
  split_ifs with hcontent
  · simp [Doc.text, Doc.flatten_row]
  · obtain ⟨-, hcur⟩ := not_or.mp hcontent
    obtain ⟨hcur, hfields⟩ := not_or.mp hcur
    rw [Doc.text, not_not.mp hcur, not_not.mp hfields]
    simp

/-- Where the loop is in a field. -/
def modeOf (q : Bool) (d : Doc) : Mode :=
  if q = true then .quoted else if d.cur = [] then .start else .bare

theorem modeOf_true (d : Doc) : modeOf true d = .quoted := rfl

theorem content_start (hrest : rest.head? ≠ some quote) : content .start rest = content .bare rest := by
  cases rest with
  | nil => rw [content, content]
  | cons c rest =>
    have hc : c ≠ quote := fun h => hrest (by rw [List.head?_cons, h])
    rw [content, if_neg hc, content]

theorem content_modeOf (hrest : rest.head? ≠ some quote) :
    content (modeOf false d) rest = content .bare rest := by
  rw [modeOf, if_neg Bool.false_ne_true]
  split_ifs
  · exact content_start hrest
  · rfl

theorem content_separator (hc : c = comma ∨ c = lf ∨ c = cr) (d : Doc) (rest : Text) :
    content (modeOf false d) (c :: rest) = content .start rest := by
  have hquote : c ≠ quote := by
    rcases hc with rfl | rfl | rfl <;> decide
  rw [modeOf, if_neg Bool.false_ne_true]
  split_ifs
  · rw [content, if_neg hquote, if_pos hc]
  · rw [content, if_pos hc]

theorem content_plain (hquote : c ≠ quote) (hc : ¬(c = comma ∨ c = lf ∨ c = cr)) (d : Doc)
    (rest : Text) : content (modeOf false d) (c :: rest) = c :: content .bare rest := by
  rw [modeOf, if_neg Bool.false_ne_true]
  split_ifs
  · rw [content, if_neg hquote, if_neg hc]
  · rw [content, if_neg hc]

theorem modeOf_put (d : Doc) (c : UInt8) : modeOf false (d.put c).start = .bare := by
  rw [modeOf, if_neg Bool.false_ne_true, if_neg]
  simp [Doc.put, Doc.start]

/-- Between quotes and outside of them, the bytes that belong to a field go there in order. -/
theorem parseRest_content (q : Bool) (d : Doc) (rest : Text) :
    (parseRest q d rest).flatten.flatten = d.text ++ content (modeOf q d) rest := by
  induction q, d, rest using parseRest.induct with
  | case1 q d =>
    rw [parseRest, Doc.flatten_finish]
    cases modeOf q d <;> rw [content, List.append_nil]
  | case2 d rest hpair ih =>
    rw [parseRest, if_pos rfl, if_pos hpair, ih, modeOf_true, modeOf_true, content, if_pos rfl,
      if_pos hpair, Doc.text_put, List.append_assoc, List.singleton_append]
  | case3 d rest hclose ih =>
    rw [parseRest, if_pos rfl, if_neg hclose, ih, modeOf_true, content, if_pos rfl, if_neg hclose,
      content_modeOf hclose]
  | case4 d c rest hc ih =>
    rw [parseRest, if_neg hc, ih, modeOf_true, modeOf_true, content, if_neg hc, Doc.text_put,
      List.append_assoc, List.singleton_append]
  | case5 d rest hfirst ih =>
    rw [parseRest, if_pos rfl, if_pos hfirst, ih, modeOf_true, modeOf,
      if_neg Bool.false_ne_true, if_pos hfirst, content, if_pos rfl, Doc.text_start]
  | case6 d rest hfirst ih =>
    rw [parseRest, if_pos rfl, if_neg hfirst, ih, modeOf_put, modeOf, if_neg Bool.false_ne_true,
      if_neg hfirst, content, if_neg (by decide), Doc.text_start, Doc.text_put, List.append_assoc,
      List.singleton_append]
  | case7 d rest hquote ih =>
    rw [parseRest, if_neg hquote, if_pos rfl, ih, content_separator (.inl rfl), Doc.text_endField]
    rfl
  | case8 d c rest hquote hcomma hend hcrlf ih =>
    obtain ⟨rest', rfl⟩ : ∃ rest', rest = lf :: rest' := List.head?_eq_some_iff.mp hcrlf.2
    rw [parseRest, if_neg hquote, if_neg hcomma, if_pos hend, if_pos hcrlf, ih,
      content_separator (.inr hend), Doc.text_endRow, content, if_neg (by decide),
      if_pos (.inr (.inl rfl))]
    rfl
  | case9 d c rest hquote hcomma hend hcrlf ih =>
    rw [parseRest, if_neg hquote, if_neg hcomma, if_pos hend, if_neg hcrlf, ih,
      content_separator (.inr hend), Doc.text_endRow]
    rfl
  | case10 d c rest hquote hcomma hend ih =>
    rw [parseRest, if_neg hquote, if_neg hcomma, if_neg hend, ih, modeOf_put,
      content_plain hquote (not_or.mpr ⟨hcomma, hend⟩), Doc.text_start, Doc.text_put,
      List.append_assoc, List.singleton_append]

theorem parse_content (input : Text) :
    ∃ rows, parse input = some rows ∧ rows.flatten.flatten = content .start input :=
  ⟨_, parse_eq input, parseRest_content false ⟨[], [], [], false⟩ input⟩

end Content

/-! ## Round trip -/

theorem readRow_eq_iff (row : CsvRow) : readRow row = row ↔ row ≠ [[]] := by
  rw [readRow]
  split_ifs with h
  · rw [h]
    simp
  · simp [h]

/-- The rows are read back, and nothing of a document is lost, if and only if no row has a single
empty field. -/
theorem csvRight_iff (rows : List CsvRow) (input : Text) :
    (parse (serialize rows) = some rows ∧
      ∃ out, parse input = some out ∧ out.flatten.flatten = content .start input) ↔
      ∀ row ∈ rows, row ≠ [[]] := by
  have hself : rows.map readRow = rows ↔ ∀ row ∈ rows, readRow row = row := by
    conv_lhs =>
      rhs
      rw [← List.map_id rows]
    exact List.map_inj_left
  rw [and_iff_left (parse_content input), parse_serialize, Option.some_inj, hself]
  exact forall₂_congr fun row _ => readRow_eq_iff row

theorem loses_empty_field : parse (serialize [[[]]]) = some [[]] := by
  decide +kernel

end Kryos.Stdlib.Csv

import Kryos.Lib.Utf8
import Mathlib.Algebra.Order.Group.Nat
import Mathlib.Data.List.DropRight
import Mathlib.Data.List.GetD

/-!
# Positions in the language server

The server names a place in a text by a line and a column. Definitions and references count the
characters of the line, the source map behind the diagnostics counts its bytes, and so does the way
back from a position to an offset.

## Main results

* `Lsp.offsetToLineCol_append` — the line feeds before an offset, and the characters after the last
* `Lsp.lineColToOffset_append` — a column is taken back to the first character at or after that byte
* `Lsp.positions_agree_iff` — positions agree exactly where the line has only ASCII characters before them
-/

namespace Kryos.Lsp

/-! ## Definitions and references -/

/-- The loop of `offset_to_line_col`, at the byte `i`. -/
def offsetToLineColFrom (offset : ℕ) : List Char → ℕ → ℕ → ℕ → ℕ × ℕ
  | [], _, line, col => (line, col)
  | ch :: rest, i, line, col =>
    if i = offset then (line, col)
    else if ch = '\n' then offsetToLineColFrom offset rest (i + ch.utf8Size) (line + 1) 0
    else offsetToLineColFrom offset rest (i + ch.utf8Size) line (col + 1)

def offsetToLineCol (source : List Char) (offset : ℕ) : ℕ × ℕ :=
  offsetToLineColFrom offset source 0 0 0

/-- The copy of it that the references use. -/
def References.offsetToLineCol (source : List Char) (offset : ℕ) : ℕ × ℕ :=
  offsetToLineColFrom offset source 0 0 0

/-- The loop of `line_col_to_offset`, at the byte `i`. Behind the last character `i` is the length
of the source. -/
def lineColToOffsetFrom (line character : ℕ) : List Char → ℕ → ℕ → ℕ → ℕ
  | [], i, _, _ => i
  | ch :: rest, i, currentLine, lineStart =>
    if currentLine = line ∧ i - lineStart ≥ character then i
    else if ch = '\n' then
      lineColToOffsetFrom line character rest (i + ch.utf8Size) (currentLine + 1) (i + 1)
    else lineColToOffsetFrom line character rest (i + ch.utf8Size) currentLine lineStart

def lineColToOffset (source : List Char) (line character : ℕ) : ℕ :=
  lineColToOffsetFrom line character source 0 0 0

/-! ## The source map -/

/-- `source.match_indices('\n')`, from the byte `i` on, and one further. -/
def lineStartsFrom : List Char → ℕ → List ℕ
  | [], _ => []
  | ch :: rest, i =>
    if ch = '\n' then (i + 1) :: lineStartsFrom rest (i + ch.utf8Size)
    else lineStartsFrom rest (i + ch.utf8Size)

structure SourceFile where
  source : List Char
  lineStarts : List ℕ

def addFile (source : List Char) : SourceFile where
  source := source
  lineStarts := 0 :: lineStartsFrom source 0

/-- `offset_to_line_col` of the source map, both numbers from 1 on. The line starts increase, so the
partition point is where the first larger one stands. -/
def SourceFile.offsetToLineCol (file : SourceFile) (offset : ℕ) : ℕ × ℕ :=
  let line := (file.lineStarts.takeWhile (· ≤ offset)).length
  let lineStart := file.lineStarts.getD (line - 1) 0
  (line, offset - lineStart + 1)

/-- The start of the range of a diagnostic whose label begins at the offset. -/
def diagnosticStart (source : List Char) (offset : ℕ) : ℕ × ℕ :=
  let (startLine, startCol) := (addFile source).offsetToLineCol offset
  (startLine - 1, startCol - 1)

/-! ## What the loops return -/

/-- The bytes of a text. -/
def byteLen (cs : List Char) : ℕ := (Utf8.encode cs).length

variable {cs before after rest : List Char} {c : Char} {i line col character lineStart offset : ℕ}

@[simp] theorem byteLen_cons (c : Char) (cs : List Char) :
    byteLen (c :: cs) = c.utf8Size + byteLen cs := by
  rw [byteLen, Utf8.encode, List.flatMap_cons, List.length_append, Utf8.length_encodeChar]
  rfl

@[simp] theorem byteLen_append (a b : List Char) : byteLen (a ++ b) = byteLen a + byteLen b := by
  rw [byteLen, Utf8.encode, List.flatMap_append, List.length_append]
  rfl

theorem length_le_byteLen (cs : List Char) : cs.length ≤ byteLen cs := by
  induction cs with
  | nil => rfl
  | cons c cs ih =>
    rw [List.length_cons, byteLen_cons, Nat.add_comm]
    exact Nat.add_le_add c.utf8Size_pos ih

/-- Bytes and characters are as many exactly if every character has one byte. -/
theorem byteLen_eq_length_iff : byteLen cs = cs.length ↔ ∀ c ∈ cs, c.utf8Size = 1 := by
  induction cs with
  | nil => exact iff_of_true rfl fun _ h => absurd h List.not_mem_nil
  | cons c cs ih =>
    have hpos := c.utf8Size_pos
    have hle := length_le_byteLen cs
    rw [byteLen_cons, List.length_cons, List.forall_mem_cons, ← ih]
    omega

/-- The characters of the line that are before the end of the text. -/
def lastLine (before : List Char) : List Char := before.rtakeWhile (· ≠ '\n')

/-- The line feeds of a text. -/
def lineFeeds (before : List Char) : ℕ := before.count '\n'

/-- The start of the line that the end of the text is on. -/
def lastStart (before : List Char) : ℕ := byteLen (before.rdropWhile (· ≠ '\n'))

theorem lastStart_add (before : List Char) :
    lastStart before + byteLen (lastLine before) = byteLen before := by
  rw [lastStart, lastLine, ← byteLen_append, List.rdropWhile_append_rtakeWhile]

theorem lastLine_concat_feed (before : List Char) : lastLine (before ++ ['\n']) = [] :=
  List.rtakeWhile_concat_neg _ _ _ (by simp)

theorem lastLine_concat (h : c ≠ '\n') (before : List Char) :
    lastLine (before ++ [c]) = lastLine before ++ [c] :=
  List.rtakeWhile_concat_pos _ _ _ (by simpa using h)

theorem lastStart_concat_feed (before : List Char) :
    lastStart (before ++ ['\n']) = byteLen before + 1 := by
  rw [lastStart, List.rdropWhile_concat_neg _ _ _ (by simp), byteLen_append]
  rfl

theorem lastStart_concat (h : c ≠ '\n') (before : List Char) :
    lastStart (before ++ [c]) = lastStart before := by
  rw [lastStart, List.rdropWhile_concat_pos _ _ _ (by simpa using h), lastStart]

theorem lineFeeds_concat_feed (before : List Char) :
    lineFeeds (before ++ ['\n']) = lineFeeds before + 1 :=
  List.count_append

theorem lineFeeds_concat (h : c ≠ '\n') (before : List Char) :
    lineFeeds (before ++ [c]) = lineFeeds before := by
  rw [lineFeeds, List.count_append, List.count_singleton, if_neg (by simpa using h)]
  rfl

theorem feed_not_mem_lastLine (before : List Char) : '\n' ∉ lastLine before := by
  intro h
  have hne := List.mem_rtakeWhile_imp h
  exact of_decide_eq_true hne rfl

/-! ### Offset to position -/

/-- What a character does to the line and the column. -/
def advance (position : ℕ × ℕ) (ch : Char) : ℕ × ℕ :=
  if ch = '\n' then (position.1 + 1, 0) else (position.1, position.2 + 1)

theorem offsetToLineColFrom_append (before rest : List Char) (i line col : ℕ) :
    offsetToLineColFrom (i + byteLen before) (before ++ rest) i line col =
      before.foldl advance (line, col) := by
  induction before generalizing i line col with
  | nil =>
    cases rest with
    | nil => rfl
    | cons ch rest => exact if_pos rfl
  | cons ch before ih =>
    have hne : i ≠ i + byteLen (ch :: before) := by
      have := ch.utf8Size_pos
      rw [byteLen_cons]
      omega
    rw [List.cons_append, offsetToLineColFrom, if_neg hne, byteLen_cons, ← Nat.add_assoc,
      List.foldl_cons, advance]
    split
    · exact ih _ _ _
    · exact ih _ _ _

theorem foldl_advance (before : List Char) :
    before.foldl advance (0, 0) = (lineFeeds before, (lastLine before).length) := by
  induction before using List.reverseRecOn with
  | nil => rfl
  | append_singleton before c ih =>
    rw [List.foldl_append, List.foldl_cons, List.foldl_nil, ih, advance]
    by_cases hc : c = '\n'
    · subst hc
      rw [if_pos rfl, lastLine_concat_feed, lineFeeds_concat_feed]
      rfl
    · rw [if_neg hc, lastLine_concat hc, lineFeeds_concat hc, List.length_append]
      rfl

/-- The line feeds before the offset, and the characters after the last of them. -/
theorem offsetToLineCol_append (before rest : List Char) :
    offsetToLineCol (before ++ rest) (byteLen before) =
      (lineFeeds before, (lastLine before).length) := by
  have h := offsetToLineColFrom_append before rest 0 0 0
  rw [Nat.zero_add] at h
  rw [offsetToLineCol, h, foldl_advance]

/-! ### Position to offset -/

/-- The loop goes on up to the line it looks for. -/
theorem lineColToOffsetFrom_lines (line character : ℕ) (rest : List Char) :
    ∀ (lines : List Char) (i currentLine lineStart : ℕ),
    (∀ h : lines ≠ [], lines.getLast h = '\n') → currentLine + lineFeeds lines = line →
    (lines = [] → lineStart = i) →
    lineColToOffsetFrom line character (lines ++ rest) i currentLine lineStart =
      lineColToOffsetFrom line character rest (i + byteLen lines) line (i + byteLen lines)
  | [], i, currentLine, lineStart, _, hline, hstart => by
    rw [List.nil_append, hstart rfl, ← hline]
    rfl
  | ch :: lines, i, currentLine, lineStart, hlast, hline, _ => by
    have hpos : 0 < lineFeeds (ch :: lines) :=
      List.count_pos_iff.mpr (hlast (List.cons_ne_nil _ _) ▸ List.getLast_mem _)
    have hlast' : ∀ h : lines ≠ [], lines.getLast h = '\n' := fun h => by
      rw [← hlast (List.cons_ne_nil _ _), List.getLast_cons h]
    rw [List.cons_append, lineColToOffsetFrom, if_neg fun h => by omega, byteLen_cons,
      ← Nat.add_assoc]
    by_cases hc : ch = '\n'
    · subst hc
      rw [if_pos rfl]
      refine lineColToOffsetFrom_lines line character rest lines _ _ _ hlast' ?_ fun _ => rfl
      rw [← hline, lineFeeds, lineFeeds, List.count_cons_self]
      omega
    · rw [if_neg hc]
      refine lineColToOffsetFrom_lines line character rest lines _ _ _ hlast' ?_ fun hnil => ?_
      · rw [← hline, lineFeeds, lineFeeds, List.count_cons_of_ne hc]
      · subst hnil
        exact absurd (hlast (List.cons_ne_nil _ _)) hc

/-- On the line, it counts bytes; they are the characters if every one has one byte. -/
theorem lineColToOffsetFrom_line (line : ℕ) (rest : List Char) (start : ℕ) :
    ∀ (chars : List Char) (k : ℕ), '\n' ∉ chars → (∀ c ∈ chars, c.utf8Size = 1) →
    lineColToOffsetFrom line (k + chars.length) (chars ++ rest) (start + k) line start =
      start + k + chars.length
  | [], k, _, _ => by
    cases rest with
    | nil => rfl
    | cons ch rest => exact if_pos ⟨rfl, by simp⟩
  | ch :: chars, k, hfeed, hsize => by
    obtain ⟨hne, hfeed⟩ := not_or.mp (mt List.mem_cons.mpr hfeed)
    obtain ⟨hch, hsize⟩ := List.forall_mem_cons.mp hsize
    have ih := lineColToOffsetFrom_line line rest start chars (k + 1) hfeed hsize
    rw [List.cons_append, lineColToOffsetFrom, List.length_cons, if_neg fun h => by omega,
      if_neg (Ne.symm hne), hch]
    rw [show k + (chars.length + 1) = k + 1 + chars.length by omega,
      show start + k + 1 = start + (k + 1) by omega, ih]
    omega

/-- A position is taken back to its offset if the characters before it on the line have one byte
each. -/
theorem lineColToOffset_append (hsize : ∀ c ∈ lastLine before, c.utf8Size = 1)
    (rest : List Char) :
    lineColToOffset (before ++ rest) (lineFeeds before) (lastLine before).length =
      byteLen before := by
  have hlast : ∀ h : before.rdropWhile (· ≠ '\n') ≠ [],
      (before.rdropWhile (· ≠ '\n')).getLast h = '\n' := fun h => by
    have hnot := List.rdropWhile_last_not (· ≠ '\n') before h
    simpa using hnot
  have hsplit : before.rdropWhile (· ≠ '\n') ++ lastLine before = before :=
    List.rdropWhile_append_rtakeWhile
  have hfeeds : 0 + lineFeeds (before.rdropWhile (· ≠ '\n')) = lineFeeds before := by
    have hnone : lineFeeds (lastLine before) = 0 :=
      List.count_eq_zero_of_not_mem (feed_not_mem_lastLine before)
    have hcount : lineFeeds before =
        lineFeeds (before.rdropWhile (· ≠ '\n')) + lineFeeds (lastLine before) := by
      rw [lineFeeds, lineFeeds, lineFeeds, ← List.count_append, hsplit]
    omega
  have hlines := lineColToOffsetFrom_lines _ (lastLine before).length
    (lastLine before ++ rest) _ 0 0 0 hlast hfeeds fun _ => rfl
  have hline := lineColToOffsetFrom_line (lineFeeds before) rest (lastStart before)
    (lastLine before) 0 (feed_not_mem_lastLine before) hsize
  rw [Nat.zero_add] at hlines hline
  rw [← List.append_assoc, hsplit] at hlines
  rw [lineColToOffset, hlines]
  refine hline.trans ?_
  rw [Nat.add_zero, ← byteLen_eq_length_iff.mpr hsize, lastStart_add]

/-! ### The source map -/

theorem lineStartsFrom_append (a b : List Char) (i : ℕ) :
    lineStartsFrom (a ++ b) i = lineStartsFrom a i ++ lineStartsFrom b (i + byteLen a) := by
  induction a generalizing i with
  | nil => rfl
  | cons ch a ih =>
    rw [List.cons_append, lineStartsFrom, lineStartsFrom, ih, byteLen_cons, ← Nat.add_assoc]
    split
    · rw [List.cons_append]
    · rfl

theorem le_of_mem_lineStarts {chars : List Char} {i n : ℕ} (h : n ∈ lineStartsFrom chars i) :
    i < n ∧ n ≤ i + byteLen chars := by
  induction chars generalizing i with
  | nil => exact absurd h List.not_mem_nil
  | cons ch chars ih =>
    have hpos := ch.utf8Size_pos
    rw [byteLen_cons]
    rw [lineStartsFrom] at h
    split at h
    · rcases List.mem_cons.mp h with rfl | h
      · omega
      · have := ih h
        omega
    · have := ih h
      omega

theorem length_lineStartsFrom (chars : List Char) (i : ℕ) :
    (lineStartsFrom chars i).length = lineFeeds chars := by
  induction chars generalizing i with
  | nil => rfl
  | cons ch chars ih =>
    rw [lineStartsFrom, lineFeeds]
    split
    · rename_i hc
      rw [hc, List.length_cons, ih, List.count_cons_self, lineFeeds]
    · rename_i hc
      rw [ih, List.count_cons_of_ne hc, lineFeeds]

theorem getLast_lineStarts (before : List Char) :
    (0 :: lineStartsFrom before 0).getLast (List.cons_ne_nil _ _) = lastStart before := by
  induction before using List.reverseRecOn with
  | nil => rfl
  | append_singleton before c ih =>
    simp only [lineStartsFrom_append, Nat.zero_add, ← List.cons_append]
    by_cases hc : c = '\n'
    · subst hc
      rw [lastStart_concat_feed]
      exact List.getLast_append_singleton _
    · have hnil : lineStartsFrom [c] (byteLen before) = [] := if_neg hc
      simp only [hnil, List.append_nil]
      rw [lastStart_concat hc, ih]

/-- The line starts up to an offset are those of the text before it. -/
theorem takeWhile_lineStarts (before rest : List Char) :
    (addFile (before ++ rest)).lineStarts.takeWhile (· ≤ byteLen before) =
      0 :: lineStartsFrom before 0 := by
  have hle : ∀ n ∈ 0 :: lineStartsFrom before 0, decide (n ≤ byteLen before) = true := by
    refine List.forall_mem_cons.mpr ⟨decide_eq_true (Nat.zero_le _), fun n hn => ?_⟩
    have := le_of_mem_lineStarts hn
    exact decide_eq_true (by omega)
  have hgt : (lineStartsFrom rest (byteLen before)).takeWhile (· ≤ byteLen before) = [] := by
    cases hstarts : lineStartsFrom rest (byteLen before) with
    | nil => rfl
    | cons n starts =>
      have := le_of_mem_lineStarts (hstarts ▸ List.mem_cons_self)
      exact List.takeWhile_cons_of_neg (by simpa using this.1)
  show (0 :: lineStartsFrom (before ++ rest) 0).takeWhile (· ≤ byteLen before) = _
  rw [lineStartsFrom_append, Nat.zero_add, ← List.cons_append,
    List.takeWhile_append_of_pos hle, hgt, List.append_nil]

/-- The line feeds before the offset, and the bytes after the last of them. -/
theorem diagnosticStart_append (before rest : List Char) :
    diagnosticStart (before ++ rest) (byteLen before) =
      (lineFeeds before, byteLen (lastLine before)) := by
  have hline : ((addFile (before ++ rest)).lineStarts.takeWhile (· ≤ byteLen before)).length =
      lineFeeds before + 1 := by
    rw [takeWhile_lineStarts, List.length_cons, length_lineStartsFrom]
  have hstart : (addFile (before ++ rest)).lineStarts.getD (lineFeeds before) 0 =
      lastStart before := by
    have hlt : lineFeeds before < (0 :: lineStartsFrom before 0).length := by
      rw [List.length_cons, length_lineStartsFrom]
      exact Nat.lt_succ_self _
    have hlist : (addFile (before ++ rest)).lineStarts =
        (0 :: lineStartsFrom before 0) ++ lineStartsFrom rest (byteLen before) := by
      rw [addFile, lineStartsFrom_append, Nat.zero_add, List.cons_append]
    rw [hlist, List.getD_append _ _ _ _ hlt, List.getD_eq_getElem _ _ hlt, ← getLast_lineStarts,
      List.getLast_eq_getElem]
    simp only [List.length_cons, length_lineStartsFrom, Nat.add_sub_cancel]
  have hadd := lastStart_add before
  simp only [diagnosticStart, SourceFile.offsetToLineCol, hline, Nat.add_sub_cancel, hstart]
  rw [Prod.mk.injEq]
  exact ⟨rfl, by omega⟩

/-! ## Where positions agree -/

/-- The position of an offset leads back to the offset, and to itself, and is the one that
diagnostics and references give. -/
structure Agree (source : List Char) (offset : ℕ) : Prop where
  back : lineColToOffset source (offsetToLineCol source offset).1
    (offsetToLineCol source offset).2 = offset
  again : offsetToLineCol source (lineColToOffset source (offsetToLineCol source offset).1
    (offsetToLineCol source offset).2) = offsetToLineCol source offset
  diagnostic : diagnosticStart source offset = offsetToLineCol source offset
  reference : References.offsetToLineCol source offset = offsetToLineCol source offset

/-- At the offset between two parts of a text, positions agree exactly if the line has only ASCII
characters before the offset. -/
theorem positions_agree_iff (before rest : List Char) :
    Agree (before ++ rest) (byteLen before) ↔ ∀ c ∈ lastLine before, c.val ≤ 0x7F := by
  have hsize : (∀ c ∈ lastLine before, c.val ≤ 0x7F) ↔ ∀ c ∈ lastLine before, c.utf8Size = 1 :=
    forall₂_congr fun c _ => Char.utf8Size_eq_one_iff.symm
  rw [hsize]
  constructor
  · intro h
    have hdiag := h.diagnostic
    rw [diagnosticStart_append, offsetToLineCol_append, Prod.mk.injEq] at hdiag
    exact byteLen_eq_length_iff.mp hdiag.2
  · intro h
    have hback := lineColToOffset_append h rest
    refine ⟨?_, ?_, ?_, rfl⟩
    · rw [offsetToLineCol_append, hback]
    · rw [offsetToLineCol_append, hback, offsetToLineCol_append]
    · rw [diagnosticStart_append, offsetToLineCol_append, byteLen_eq_length_iff.mpr h]

/-- In `éax` the offset 3 has the column 2, which leads back to the offset 2; its diagnostics are at
the column 3. -/
theorem not_agree_accent : ¬Agree ['é', 'a', 'x'] 3 := fun h => absurd h.back (by decide)

end Kryos.Lsp

import Kryos.Lexer.Strings

/-!
# All tokens of a source

Every source has tokens. The last of them is the only `Eof`, the others are in order and within the
source, and they leave out nothing but whitespace and comments (`tokenize_covers`). The offsets of
spans have 32 bits, so this is about sources with fewer than `2 ^ 32` bytes; the lexer reaches the
end of the longer ones too.

A part of a string behind an interpolation spans the string from its quote on, and so encloses the
tokens of the interpolation (`spans_overlap`).
-/

namespace Kryos.Lexer

open VariantLoop Kryos.Parser

variable {L lx : Lexer}

/-! ### One token -/

theorem ascii_of_operator {op : Char × TokenKind × String × List (Char × TokenKind × String)}
    (hop : op ∈ operators) :
    op.1.toUInt8 < 0x80 ∧ op.2.1 ≠ .eof ∧
      ∀ longer ∈ op.2.2.2, longer.1.toUInt8 < 0x80 ∧ longer.2.1 ≠ .eof := by
  have hall : ∀ op ∈ operators, op.1.toUInt8 < 0x80 ∧ op.2.1 ≠ .eof ∧
      ∀ longer ∈ op.2.2.2, longer.1.toUInt8 < 0x80 ∧ longer.2.1 ≠ .eof := by
    decide
  exact hall op hop

theorem ascii_of_wordStart {b : UInt8} (h : isWordStart b = true) : b < 0x80 :=
  ascii_of_word (Bool.or_eq_true _ _ ▸ .inl h)

/-- Enough fuel for the interpolations that may still be opened. -/
theorem scans_scanToken (n : ℕ) {d : ℕ} (hn : maxInterpDepth < n + d) (hd : d ≤ maxInterpDepth) :
    Scans (scanToken n) d := by
  induction n generalizing d with
  | zero => omega
  | succ n ih =>
    rintro lx rfl h hb hlt
    have h' := h.advance
    have hpast : lx.pos < lx.advance.pos := by
      rw [advance_of_lt hlt]
      exact Nat.lt_succ_self _
    have hascii (hlow : lx.peek < 0x80) : Boundary lx.advance := boundary_advance hlt hlow
    rw [scanToken]
    split
    · rename_i c kind text longer hfind
      obtain ⟨hc, hkind, hlonger⟩ := ascii_of_operator (List.mem_of_find?_eq_some hfind)
      have heq := List.find?_some hfind
      rw [beq_iff_eq] at heq
      exact h'.scansOperator hpast (hascii (heq ▸ hc)) hkind hlonger text
    split
    · rename_i heq
      exact h'.scansDots hpast (hascii (by rw [heq]; decide))
    split
    · rename_i heq
      exact h'.scansString hpast (hascii (by rw [heq]; decide)) fun hdepth =>
        ih (by omega) hdepth
    split
    · exact h'.scansChar hpast
    split
    · rename_i hdigit
      exact h'.scansNumber hb hpast (hascii (ascii_of_digit hdigit))
    split
    · rename_i hword
      exact h'.scansIdentifier hb hpast (hascii (ascii_of_wordStart hword))
    split
    · exact h'.scansNonAscii hb hpast
    · rename_i hlow
      exact h'.scans hpast h'.self (hascii (UInt8.not_le.mp hlow)) (by decide) _

/-! ### The token loop -/

theorem tokenStep_spec (hdepth : L.interpDepth = 0) (h : Lexes L lx) :
    (∃ lx', tokenStep lx = some (.inl lx') ∧ Lexes L lx' ∧ lx'.remaining < lx.remaining) ∨
      ∃ lx', tokenStep lx = some (.inr lx') ∧ Lexes L lx' ∧ lx'.atEnd = true := by
  rw [tokenStep]
  split
  · rename_i hend
    exact .inr ⟨lx, rfl, h, hend⟩
  obtain ⟨t, hskip, ht⟩ := skip_spec h.self h.1
  have hLt := h.trans ht
  rw [hskip, Option.bind_eq_bind, Option.bind_some]
  split
  · rename_i hend
    exact .inr ⟨t, rfl, hLt, hend⟩
  · rename_i hend
    have hscan := scans_scanToken (maxInterpDepth + 1) (Nat.lt_succ_self _) (Nat.zero_le _)
    obtain ⟨v, hv, hscanned⟩ := hscan t (hLt.interpDepth.trans hdepth) hLt.self hLt.1
      (atEnd_eq_false.mp (Bool.eq_false_iff.mpr hend))
    rw [hv]
    refine .inl ⟨v, rfl, hLt.trans hscanned.lexes, ?_⟩
    have hlater := remaining_lt hscanned.lexes.bytes hscanned.1
      (hscanned.lexes.bytes ▸ hscanned.2.1.pos_le)
    exact hlater.trans_le ht.remaining_le

theorem tokenLoop_spec (src : List Char) (fileId : ℕ) :
    ∃ lx, iterate tokenStep (new src fileId).rounds (new src fileId) = some lx ∧
      Lexes (new src fileId) lx ∧ lx.atEnd = true := by
  have hself : Emits (new src fileId) (new src fileId) [] := .refl (Nat.zero_le _) le_rfl
  exact iterate_spec remaining (fun _ => tokenStep_spec rfl) (.refl hself .zero)
    (remaining_lt_rounds rfl)

/-! ### The result -/

def piece (tok : Token) : Piece := ⟨tok.kind, tok.span.start, tok.span.stop⟩

/-- Offsets that fit in 32 bits are in the spans unchanged. -/
theorem map_piece {fileId b : ℕ} {toks : List Token} {ps : List Piece}
    (h : List.Forall₂ (IsPiece fileId) toks ps) (hb : b < 2 ^ 32)
    (hps : ∀ p ∈ ps, p.start ≤ p.stop ∧ p.stop ≤ b) : toks.map piece = ps := by
  induction h with
  | nil => rfl
  | @cons tok p toks ps hp hrest ih =>
    obtain ⟨hstart, hstop⟩ := hps p List.mem_cons_self
    rw [List.map_cons, ih fun q hq => hps q (List.mem_cons_of_mem _ hq), piece, hp.1, hp.2]
    show Piece.mk p.kind (p.start % 2 ^ 32) (p.stop % 2 ^ 32) :: ps = p :: ps
    rw [Nat.mod_eq_of_lt (by omega), Nat.mod_eq_of_lt (by omega)]

theorem exists_emit {lx : Lexer} (hpos : lx.pos ≤ lx.bytes.length)
    (hlast : lx.lastTokenEnd ≤ lx.pos) (kind : TokenKind) (text : String) :
    lx.emit kind lx.pos lx.pos text = some { lx with
      tokens := lx.tokens ++ [lx.token kind lx.pos lx.pos text]
      lastTokenEnd := lx.pos } := by
  rw [emit, if_pos (Nat.max_le.mpr ⟨hpos, hlast.trans hpos⟩)]

theorem tokenize_covers (src : List Char) (fileId : ℕ) :
    ∃ toks eof, tokenize (new src fileId) = some (toks ++ [eof]) ∧ eof.kind = .eof ∧
      (∀ tok ∈ toks, tok.kind ≠ .eof) ∧
      ((Utf8.encode src).length < 2 ^ 32 →
        piece eof = ⟨.eof, (Utf8.encode src).length, (Utf8.encode src).length⟩ ∧
          Segment 0 (Utf8.encode src).length (toks.map piece) ∧
          Covers (Utf8.encode src) 0 (Utf8.encode src).length (toks.map piece)) := by
  obtain ⟨lx, hloop, ⟨hb, ps, hps, hcovers⟩, hend⟩ := tokenLoop_spec src fileId
  obtain ⟨toks, htoks, hpieces⟩ := hps.tokens
  have htoks : lx.tokens = toks := htoks
  have hpos : lx.pos = (Utf8.encode src).length := by
    refine le_antisymm hps.pos_le ?_
    rw [atEnd_iff, hps.bytes] at hend
    exact hend
  refine ⟨toks, lx.token .eof lx.pos lx.pos "", ?_, rfl, fun tok htok => ?_, fun hlen => ?_⟩
  · have hemit := exists_emit hb.pos_le hps.lastTokenEnd_le .eof ""
    rw [← htoks, tokenize, tokenizeWithDiagnostics]
    simp only [hloop, hemit, Option.bind_eq_bind, Option.bind_some]
    rfl
  · obtain ⟨p, hp, hkind⟩ : ∃ p ∈ ps, tok.kind = p.kind := by
      obtain ⟨i, hi, rfl⟩ := List.mem_iff_getElem.mp htok
      have hi' : i < ps.length := hpieces.length_eq ▸ hi
      exact ⟨ps[i], List.getElem_mem hi', (hpieces.get hi hi').1⟩
    rw [hkind]
    exact hps.segment.noEof p hp
  · have hsegment : Segment 0 (Utf8.encode src).length ps := hpos ▸ hps.segment
    have hmap := map_piece hpieces hlen fun p hp => (hsegment.within p hp).2
    have hcovers := hcovers hlen
    rw [hpos] at hcovers
    rw [hmap]
    refine ⟨?_, hsegment, hcovers⟩
    show Piece.mk .eof (lx.pos % 2 ^ 32) (lx.pos % 2 ^ 32) = _
    rw [hpos, Nat.mod_eq_of_lt hlen]

/-! ### Where spans overlap -/

theorem bytes_spaces (n : ℕ) : Utf8.encode (List.replicate n ' ' ++ [';']) =
    List.replicate n ' '.toUInt8 ++ [';'.toUInt8] := by
  rw [Utf8.encode_append]
  congr 1
  induction n with
  | zero => rfl
  | succ n ih =>
    rw [List.replicate_succ, Utf8.encode_cons, ih, List.replicate_succ]
    rfl

/-- The lexer at a semicolon behind `n` spaces. -/
def atSemicolon (n : ℕ) : Lexer := { new (List.replicate n ' ' ++ [';']) 0 with pos := n }

/-- The lexer behind it. -/
def pastSemicolon (n : ℕ) : Lexer where
  src := List.replicate n ' ' ++ [';']
  fileId := 0
  pos := n + 1
  tokens := [(atSemicolon n).token .semicolon n (n + 1) ";"]
  diagnostics := []
  lastTokenEnd := n + 1
  interpDepth := 0

theorem bytes_atSemicolon (n : ℕ) :
    (atSemicolon n).bytes = List.replicate n ' '.toUInt8 ++ [';'.toUInt8] := bytes_spaces n

theorem length_atSemicolon (n : ℕ) : (atSemicolon n).bytes.length = n + 1 := by
  rw [bytes_atSemicolon, List.length_append, List.length_replicate]
  rfl

theorem peek_atSemicolon (n : ℕ) : (atSemicolon n).peek = ';'.toUInt8 := by
  show (atSemicolon n).bytes.getD n 0 = ';'.toUInt8
  rw [bytes_atSemicolon, List.getD_append_right _ _ _ _ (List.length_replicate ..).le,
    List.length_replicate, Nat.sub_self]
  rfl

theorem skip_spaces (n : ℕ) :
    (new (List.replicate n ' ' ++ [';']) 0).skipWhitespaceAndComments = some (atSemicolon n) := by
  have hrun : (new (List.replicate n ' ' ++ [';']) 0).advanceWhile isSpace = atSemicolon n := by
    have hspaces : ((Utf8.encode (List.replicate n ' ' ++ [';'])).drop 0).takeWhile isSpace =
        List.replicate n ' '.toUInt8 := by
      have hall : ∀ b ∈ List.replicate n ' '.toUInt8, isSpace b = true := by
        intro b hb
        rw [List.eq_of_mem_replicate hb]
        decide
      have hstop : [';'.toUInt8].takeWhile isSpace = [] := by decide
      rw [List.drop_zero, bytes_spaces, List.takeWhile_append_of_pos hall, hstop, List.append_nil]
    have hstop : 0 + (((Utf8.encode (List.replicate n ' ' ++ [';'])).drop 0).takeWhile
        isSpace).length = n := by
      rw [hspaces, List.length_replicate, Nat.zero_add]
    exact congrArg (fun k => { new (List.replicate n ' ' ++ [';']) 0 with pos := k }) hstop
  have hstep : skipStep (new (List.replicate n ' ' ++ [';']) 0) = some (.inr (atSemicolon n)) := by
    have hopen : ∀ c, (atSemicolon n).atPair '/' c = false := by
      intro c
      rw [atPair, peek_atSemicolon]
      rfl
    have hlt : (atSemicolon n).pos < (atSemicolon n).bytes.length := by
      rw [length_atSemicolon]
      exact Nat.lt_succ_self n
    rw [skipStep, hrun, atEnd_eq_false.mpr hlt, hopen, hopen]
    rfl
  rw [skipWhitespaceAndComments, rounds, iterate, hstep]

theorem scan_semicolon (n : ℕ) :
    scanToken (maxInterpDepth + 1) (atSemicolon n) = some (pastSemicolon n) := by
  have hlt : (atSemicolon n).pos < (atSemicolon n).bytes.length := by
    rw [length_atSemicolon]
    exact Nat.lt_succ_self n
  have hop : operators.find? (fun op => op.1.toUInt8 == (atSemicolon n).peek) =
      some (';', .semicolon, ";", []) := by
    rw [peek_atSemicolon]
    rfl
  have hgap : max n 0 ≤ (atSemicolon n).bytes.length := by
    rw [length_atSemicolon, Nat.max_zero]
    exact Nat.le_succ n
  rw [scanToken, hop, advance_of_lt hlt]
  show (if max n 0 ≤ (atSemicolon n).bytes.length then some _ else none) = _
  rw [if_pos hgap]
  rfl

theorem tokenize_spaces (n : ℕ) :
    tokenizeWithDiagnostics (new (List.replicate n ' ' ++ [';']) 0) =
      some ([(atSemicolon n).token .semicolon n (n + 1) ";",
        (pastSemicolon n).token .eof (n + 1) (n + 1) ""], []) := by
  have hlen : (new (List.replicate n ' ' ++ [';']) 0).bytes.length = n + 1 := length_atSemicolon n
  have hlen' : (pastSemicolon n).bytes.length = n + 1 := length_atSemicolon n
  have hstart : (new (List.replicate n ' ' ++ [';']) 0).atEnd = false := by
    rw [atEnd_eq_false, hlen]
    exact Nat.succ_pos n
  have hat : (atSemicolon n).atEnd = false := by
    rw [atEnd_eq_false, length_atSemicolon]
    exact Nat.lt_succ_self n
  have hpast : (pastSemicolon n).atEnd = true := atEnd_iff.mpr hlen'.le
  have hfirst : tokenStep (new (List.replicate n ' ' ++ [';']) 0) =
      some (.inl (pastSemicolon n)) := by
    rw [tokenStep, hstart, skip_spaces]
    simp only [Bool.false_eq_true, if_false, Option.bind_eq_bind, Option.bind_some, hat,
      scan_semicolon]
    rfl
  have hsecond : tokenStep (pastSemicolon n) = some (.inr (pastSemicolon n)) := by
    rw [tokenStep, if_pos hpast]
  have hloop : iterate tokenStep (new (List.replicate n ' ' ++ [';']) 0).rounds
      (new (List.replicate n ' ' ++ [';']) 0) = some (pastSemicolon n) := by
    rw [rounds, hlen, iterate, hfirst]
    show iterate tokenStep (n + 1) (pastSemicolon n) = _
    rw [iterate, hsecond]
  have hpos : (pastSemicolon n).pos ≤ (pastSemicolon n).bytes.length := hlen'.ge
  have hemit := exists_emit hpos le_rfl .eof ""
  rw [tokenizeWithDiagnostics]
  simp only [hloop, hemit, Option.bind_eq_bind, Option.bind_some]
  rfl

/-- No span reaches a token so far behind. -/
theorem not_covered_spaces {n : ℕ} (hn : 2 ^ 32 ≤ n) (b : ℕ) :
    ¬ Covered (Utf8.encode (List.replicate n ' ' ++ [';'])) 0 b
      ([(atSemicolon n).token .semicolon n (n + 1) ";",
        (pastSemicolon n).token .eof (n + 1) (n + 1) ""].map piece) n := by
  have hslash : ∀ i, (Utf8.encode (List.replicate n ' ' ++ [';'])).getD i 0 ≠ '/'.toUInt8 := by
    intro i heq
    rw [bytes_spaces] at heq
    rcases Nat.lt_or_ge i (List.replicate n ' '.toUInt8 ++ [';'.toUInt8]).length with hlt | hge
    · rw [List.getD_eq_getElem _ _ hlt] at heq
      have hmem := List.getElem_mem hlt
      rw [heq, List.mem_append, List.mem_replicate, List.mem_singleton] at hmem
      rcases hmem with ⟨-, h⟩ | h
      · exact absurd h (by decide)
      · exact absurd h (by decide)
    · rw [List.getD_eq_default _ _ hge] at heq
      exact absurd heq (by decide)
  rintro (⟨p, hp, -, hstop⟩ | hspace | ⟨c, d, hcomment, -⟩)
  · simp only [List.map_cons, List.map_nil, List.mem_cons, List.not_mem_nil, or_false] at hp
    have hmod : (n + 1) % 2 ^ 32 < 2 ^ 32 := Nat.mod_lt _ (by decide)
    rcases hp with rfl | rfl
    · exact absurd (hn.trans_lt hstop) (Nat.not_lt.mpr hmod.le)
    · exact absurd (hn.trans_lt hstop) (Nat.not_lt.mpr hmod.le)
  · have hpeek : (Utf8.encode (List.replicate n ' ' ++ [';'])).getD n 0 = ';'.toUInt8 :=
      peek_atSemicolon n
    rw [hpeek] at hspace
    exact absurd hspace (by decide)
  · rcases hcomment with hline | hblock
    · exact hslash c hline.1.1
    · exact hslash c hblock.1.1

/-- The last part of a string encloses the tokens of its interpolation, and a token behind `2 ^ 32`
bytes has a span in front of them. -/
theorem spans_overlap :
    (∃ toks, tokenize (new "\"\x7bx\x7d\"".toList 0) = some toks ∧
        ¬ toks.Pairwise fun s t => s.span.stop ≤ t.span.start) ∧
      ∃ toks, tokenizeWithDiagnostics (new (List.replicate (2 ^ 32) ' ' ++ [';']) 0) =
          some (toks, []) ∧
        ¬ Covered (Utf8.encode (List.replicate (2 ^ 32) ' ' ++ [';'])) 0
          (Utf8.encode (List.replicate (2 ^ 32) ' ' ++ [';'])).length (toks.map piece) (2 ^ 32) := by
  refine ⟨⟨_, rfl, ?_⟩, _, tokenize_spaces _, not_covered_spaces le_rfl _⟩
  decide

end Kryos.Lexer

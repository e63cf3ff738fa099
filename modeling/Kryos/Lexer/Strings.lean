import Kryos.Lexer.Trivia

/-!
# Strings with interpolations

A string literal emits a part at every interpolation, the tokens of the interpolation, and a last
part at its end, which covers all of it. `scan` is the function that scans the tokens inside; all
that a literal needs of it is `Scans`, one level of interpolation deeper.
-/

namespace Kryos.Lexer

open VariantLoop Kryos.Parser

variable {L lx lx' : Lexer} {ps : List Piece} {scan : Lexer → Option Lexer} {lit : Literal}

/-- At a depth of `d` interpolations, `scan` scans a token wherever there is one. -/
def Scans (scan : Lexer → Option Lexer) (d : ℕ) : Prop :=
  ∀ lx, lx.interpDepth = d → Emits lx lx [] → Boundary lx → lx.pos < lx.bytes.length →
    ScansFrom lx (scan lx)

/-- The pieces of an interpolated string begin with its first part. -/
def Opens (L : Lexer) (ps : List Piece) : Prop :=
  ∃ stop since, ps = ⟨.stringPart, L.pos, stop⟩ :: since

theorem Opens.append {qs : List Piece} (h : Opens L ps) : Opens L (ps ++ qs) := by
  obtain ⟨stop, since, rfl⟩ := h
  exact ⟨stop, since ++ qs, rfl⟩

/-- The kind of a part of a literal: the whole literal if nothing was emitted for it before. -/
def PartKind (L : Lexer) (ps : List Piece) (kind : TokenKind) : Prop :=
  kind = .stringPart ∧ (ps = [] ∨ Opens L ps) ∨ kind = .string ∧ ps = []

section

variable {kind : TokenKind} (h : Emits L lx ps) (hlt : L.pos < lx.pos) (hb : Boundary lx)
  (hkind : PartKind L ps kind) (text : String)

include h hlt hb hkind text

/-- A part of the literal ends here. -/
theorem Emits.part :
    ∃ lx', lx.emit kind L.pos lx.pos text = some lx' ∧ lx'.pos = lx.pos ∧ Boundary lx' ∧
      Emits L lx' (ps ++ [⟨kind, L.pos, lx.pos⟩]) := by
  have hne : kind ≠ .eof := by
    rcases hkind with ⟨rfl, -⟩ | ⟨rfl, -⟩ <;> decide
  have hfollows : Follows ps ⟨kind, L.pos, lx.pos⟩ := by
    rcases hkind with ⟨rfl, rfl | ⟨stop, since, rfl⟩⟩ | ⟨-, rfl⟩
    · exact .inl nofun
    · have hin := h.segment.within
      refine .inr ⟨rfl, [], stop, since, rfl, nofun, ?_, fun p hp => ?_⟩
      · exact (hin _ List.mem_cons_self).2.2
      · exact ⟨(hin p (List.mem_cons_of_mem _ hp)).1, (hin p (List.mem_cons_of_mem _ hp)).2.2⟩
    · exact .inl nofun
  obtain ⟨lx', heq, hpos, -, hemits⟩ := h.emit le_rfl hlt.le hne hfollows text
  refine ⟨lx', heq, hpos, ?_, hemits⟩
  rw [Boundary, hpos, hemits.src, ← h.src]
  exact hb

theorem Emits.scansPart : ScansFrom L (lx.emit kind L.pos lx.pos text) := by
  obtain ⟨lx', heq, hpos, hb', hemits⟩ := h.part hlt hb hkind text
  exact ⟨lx', heq, hpos ▸ hlt, hb', ps, kind, hpos.symm ▸ hemits⟩

end

/-! ### One interpolation -/

/-- A loop over the tokens of an interpolation stops at its end, unless at an error. -/
theorem interpStep_spec (hscan : Scans scan L.interpDepth) {t : BitVec 32 × Lexer}
    (h : Lexes L t.2) :
    (∃ t', interpStep scan t = some (.inl t') ∧ Lexes L t'.2 ∧ t'.2.remaining < t.2.remaining) ∨
      ∃ r, interpStep scan t = some (.inr r) ∧ Lexes L r.2 ∧
        (r.1 = true ∨ r.2.atEnd = true ∨ r.2.peek = '\x7d'.toUInt8) := by
  obtain ⟨depth, t⟩ := t
  rw [interpStep]
  split
  · rename_i hend
    exact .inr ⟨_, rfl, h, .inr (.inl hend)⟩
  obtain ⟨u, hskip, htu⟩ := skip_spec h.self h.1
  have hu := h.trans htu
  rw [hskip, Option.bind_eq_bind, Option.bind_some]
  split
  · rename_i hend
    exact .inr ⟨_, rfl, hu, .inr (.inl hend)⟩
  rename_i hend
  split
  · rename_i hclose
    exact .inr ⟨_, rfl, hu, .inr (.inr (beq_iff_eq.mp (Bool.and_eq_true _ _ ▸ hclose).1))⟩
  obtain ⟨v, hv, hscanned⟩ := hscan u hu.interpDepth hu.self hu.1 (by
    rwa [Bool.not_eq_true, atEnd_eq_false] at hend)
  have hlexes := hu.trans hscanned.lexes
  have hlt : v.remaining < t.remaining := by
    have hlater := remaining_lt hscanned.lexes.bytes hscanned.1
      (hscanned.lexes.bytes ▸ hscanned.2.1.pos_le)
    exact hlater.trans_le htu.remaining_le
  simp only [hv, Option.bind_some]
  split
  · split
    · exact .inr ⟨_, rfl, hlexes.emitDiag _, .inl rfl⟩
    · exact .inl ⟨_, rfl, hlexes, hlt⟩
  · exact .inl ⟨_, rfl, hlexes, hlt⟩

theorem Lexes.shallower {t : Lexer} (h : Lexes lx.deeper t) : Lexes lx t.shallower := by
  obtain ⟨hb, ps, hps, hcovers⟩ := h
  have hdepth : t.shallower.interpDepth = lx.interpDepth := by
    show t.interpDepth - 1 = lx.interpDepth
    rw [hps.interpDepth]
    exact Nat.add_sub_cancel _ 1
  exact ⟨hb, ps, ⟨hps.src, hps.fileId, hdepth, hps.tokens, hps.start_le, hps.pos_le,
    hps.lastTokenEnd_le, hps.segment⟩, hcovers⟩

/-- The tokens of an interpolation. -/
theorem interpLoop_spec (hscan : Scans scan (lx.interpDepth + 1)) (h : Emits lx lx [])
    (hb : Boundary lx) :
    ∃ lexError t, iterate (interpStep scan) lx.rounds (0, lx.deeper) = some (lexError, t) ∧
      Lexes lx t.shallower ∧
      (lexError = true ∨ t.shallower.atEnd = true ∨ t.shallower.peek = '\x7d'.toUInt8) := by
  have hself : Emits lx.deeper lx.deeper [] := .refl h.pos_le h.lastTokenEnd_le
  have hstart : Lexes lx.deeper ((0, lx.deeper) : BitVec 32 × Lexer).2 := .refl hself hb
  obtain ⟨⟨lexError, t⟩, heq, ht, hstop⟩ :=
    iterate_spec (fun t : BitVec 32 × Lexer => t.2.remaining) (fun _ => interpStep_spec hscan)
      hstart (remaining_lt_rounds rfl)
  exact ⟨lexError, t, heq, ht.shallower, hstop⟩

/-- The literal has been read up to here. -/
structure Reads (L : Lexer) (lit : Literal) : Prop where
  past : L.pos < lit.lexer.pos
  boundary : Boundary lit.lexer
  emits : ∃ ps, Emits L lit.lexer ps ∧ if lit.hasInterpolation then Opens L ps else ps = []

/-- A token of one byte. -/
theorem Emits.scansByte (h : Emits lx lx []) (hlt : lx.pos < lx.bytes.length)
    (hascii : lx.peek < 0x80) {kind : TokenKind} (hkind : kind ≠ .eof) (text : String) :
    ScansFrom lx (lx.advance.emit kind lx.pos lx.advance.pos text) := by
  have hpast : lx.pos < lx.advance.pos := by
    rw [advance_of_lt hlt]
    exact Nat.lt_succ_self _
  exact h.advance.scans hpast h.advance.self (boundary_advance hlt hascii) hkind text

theorem Reads.partBefore (h : Reads L lit) :
    ∃ lx text, partBefore L.pos lit = some (lx, text) ∧ lx.pos = lit.lexer.pos ∧ Boundary lx ∧
      ∃ ps, Emits L lx ps ∧ Opens L ps := by
  obtain ⟨ps, hps, hopens⟩ := h.emits
  rw [Lexer.partBefore]
  split
  · have hkind : PartKind L ps .stringPart := by
      refine .inl ⟨rfl, ?_⟩
      split at hopens
      · exact .inr hopens
      · exact .inl hopens
    obtain ⟨lx, heq, hpos, hb, hemits⟩ := hps.part h.past h.boundary hkind lit.text
    rw [heq]
    refine ⟨lx, "", rfl, hpos, hb, _, hemits, ?_⟩
    split at hopens
    · exact hopens.append
    · rw [hopens]
      exact ⟨lit.lexer.pos, [], rfl⟩
  · rename_i hskip
    have hhas : lit.hasInterpolation = true := by
      cases hhas : lit.hasInterpolation with
      | true => rfl
      | false => exact absurd (by rw [hhas, Bool.not_false, Bool.or_true]) hskip
    rw [hhas] at hopens
    exact ⟨lit.lexer, lit.text, rfl, rfl, h.boundary, ps, hps, hopens⟩

theorem Reads.endInterpolation (hps : Emits L lx ps) (hopens : Opens L ps) (hlt : L.pos < lx.pos)
    (hb : Boundary lx) {lexError : Bool}
    (hstop : lexError = true ∨ lx.atEnd = true ∨ lx.peek = '\x7d'.toUInt8) (text : String) :
    (∃ lit, endInterpolation L.pos text lexError lx = some (.inl lit) ∧ Reads L lit ∧
        lx.pos ≤ lit.lexer.pos) ∨
      ∃ lx', endInterpolation L.pos text lexError lx = some (.inr lx') ∧ Scanned L lx' := by
  rw [Lexer.endInterpolation]
  split
  · obtain ⟨lx', heq, hscanned⟩ := hps.scansPart hlt hb (.inl ⟨rfl, .inr hopens⟩) text
    rw [heq]
    exact .inr ⟨lx', rfl, hscanned⟩
  rename_i hno
  split
  · exact .inl ⟨_, rfl, ⟨hlt, hb, ps, hps, hopens⟩, le_rfl⟩
  rename_i hend
  have hpeek := (hstop.resolve_left hno).resolve_left hend
  have hkind : TokenKind.interpEnd ≠ .eof := by decide
  have hascii : lx.peek < 0x80 := by
    rw [hpeek]
    decide
  obtain ⟨v, hv, hscanned⟩ := hps.self.scansByte (atEnd_eq_false.mp (Bool.eq_false_iff.mpr hend))
    hascii hkind "\x7d"
  obtain ⟨hpast, hb', qs, kind, hqs⟩ := hscanned
  rw [hv]
  exact .inl ⟨_, rfl, ⟨hlt.trans hpast, hb', _, hps.trans hqs, hopens.append⟩, hpast.le⟩

theorem interpolation_spec (hscan : Scans scan (L.interpDepth + 1)) (h : Reads L lit)
    (hpeek : lit.lexer.peek = '\x7b'.toUInt8) :
    (∃ lit', interpolation scan L.pos lit = some (.inl lit') ∧ Reads L lit' ∧
        lit.lexer.pos < lit'.lexer.pos) ∨
      ∃ lx, interpolation scan L.pos lit = some (.inr lx) ∧ Scanned L lx := by
  obtain ⟨lx, text, hpart, hpos, hb, ps, hps, hopens⟩ := h.partBefore
  obtain ⟨qs, hqs, -⟩ := h.emits
  have hbytes : lx.bytes = lit.lexer.bytes := hps.bytes.trans hqs.bytes.symm
  have hbrace : lx.peek = '\x7b'.toUInt8 := by
    rwa [peek, hbytes, hpos]
  have hlt : lx.pos < lx.bytes.length := lt_of_peek_ne (by rw [hbrace]; decide)
  have hkind : TokenKind.interpStart ≠ .eof := by decide
  have hascii : lx.peek < 0x80 := by
    rw [hbrace]
    decide
  obtain ⟨v, hv, hpast, hbv, hscanned⟩ := hps.self.scansByte hlt hascii hkind "\x7b"
  obtain ⟨us, kind, hus⟩ := hscanned
  rw [← hps.interpDepth, ← hus.interpDepth] at hscan
  obtain ⟨lexError, t, hloop, ⟨hbt, ws, hws, -⟩, hstop⟩ := interpLoop_spec hscan hus.self hbv
  have hpast' : L.pos < t.shallower.pos :=
    (hpos ▸ h.past).trans (hpast.trans_le hws.start_le)
  rw [interpolation, hpart]
  show (∃ lit', ((lx.advance.emit _ _ _ _).bind _) = _ ∧ _) ∨
    ∃ lx', ((lx.advance.emit _ _ _ _).bind _) = _ ∧ _
  rw [hv]
  show (∃ lit', ((iterate _ _ _).bind _) = _ ∧ _) ∨ ∃ lx', ((iterate _ _ _).bind _) = _ ∧ _
  rw [hloop]
  have hends := Reads.endInterpolation ((hps.trans hus).trans hws) hopens.append.append hpast' hbt
    hstop text
  rcases hends with ⟨lit', heq, hreads, hle⟩ | ⟨lx', heq, hscanned⟩
  · refine .inl ⟨lit', heq, hreads, ?_⟩
    rw [← hpos]
    exact hpast.trans_le (hws.start_le.trans hle)
  · exact .inr ⟨lx', heq, hscanned⟩

/-! ### The pieces of a literal -/

theorem Reads.move (h : Reads L lit) (h' : Emits lit.lexer lx []) (hb : Boundary lx)
    (text : String) : Reads L ⟨lx, text, lit.hasInterpolation⟩ := by
  obtain ⟨ps, hps, hnone⟩ := h.emits
  refine ⟨h.past.trans_le h'.start_le, hb, ps, ?_, hnone⟩
  have hboth := hps.trans h'
  rwa [List.append_nil] at hboth

theorem Reads.self (h : Reads L lit) : Emits lit.lexer lit.lexer [] := by
  obtain ⟨ps, hps, -⟩ := h.emits
  exact hps.self

theorem Reads.warnDollar (h : Reads L lit) :
    Reads L (warnDollar lit) ∧ (warnDollar lit).lexer.pos = lit.lexer.pos ∧
      (warnDollar lit).lexer.peek = lit.lexer.peek := by
  rw [Lexer.warnDollar]
  split
  · exact ⟨h.move (h.self.emitDiag _) h.boundary _, rfl, rfl⟩
  · exact ⟨h, rfl, rfl⟩

theorem Reads.advance (h : Reads L lit) (hlt : lit.lexer.pos < lit.lexer.bytes.length)
    (hascii : lit.lexer.peek < 0x80) (c : Char) :
    Reads L (lit.push lit.lexer.advance c) ∧ lit.lexer.pos < lit.lexer.advance.pos := by
  refine ⟨h.move h.self.advance (boundary_advance hlt hascii) _, ?_⟩
  rw [advance_of_lt hlt]
  exact Nat.lt_succ_self _

theorem Reads.pair (h : Reads L lit) {c d : Char} (hc : c.toUInt8 ≠ 0) (hd : d.toUInt8 ≠ 0)
    (hascii : d.toUInt8 < 0x80) (hpair : lit.lexer.atPair c d = true) (e : Char) :
    Reads L (lit.push lit.lexer.advance.advance e) ∧
      lit.lexer.pos < lit.lexer.advance.advance.pos := by
  refine ⟨h.move h.self.advance.advance (boundary_pair hc hd hascii hpair) _, ?_⟩
  rw [(pair_in_range hc hd hpair).2]
  exact Nat.lt_add_of_pos_right (by decide)

theorem Reads.advanceUtf8 (h : Reads L lit) (hlt : lit.lexer.pos < lit.lexer.bytes.length)
    (c : Char) :
    Reads L (lit.push lit.lexer.advanceUtf8.2 c) ∧ lit.lexer.pos < lit.lexer.advanceUtf8.2.pos := by
  refine ⟨h.move h.self.advanceUtf8 (boundary_advanceUtf8 h.boundary) _, ?_⟩
  obtain ⟨n, heq, hn, -, -⟩ := advanceUtf8_spec hlt
  rw [heq]
  exact hn

/-- What stands behind a backslash is passed over as a whole, if there is anything. -/
theorem Reads.stringEscape (h : Reads L lit) (hlt : lit.lexer.pos < lit.lexer.bytes.length)
    (hascii : lit.lexer.peek < 0x80) :
    Reads L (stringEscape lit lit.lexer.advance) ∧
      lit.lexer.pos < (stringEscape lit lit.lexer.advance).lexer.pos := by
  obtain ⟨hadvance, hpast⟩ := h.advance hlt hascii '\\'
  have hb := hadvance.boundary
  have hself : Emits lit.lexer lit.lexer.advance [] := h.self.advance
  rw [Lexer.stringEscape]
  generalize lit.lexer.advance = t at hb hself hpast
  have hb : Boundary t := hb
  split
  · exact ⟨h.move hself hb _, hpast⟩
  rename_i hend
  have hlt' := atEnd_eq_false.mp (Bool.eq_false_iff.mpr hend)
  split
  · refine ⟨h.move (hself.advanceUtf8.emitDiag _) (boundary_advanceUtf8 hb) _, ?_⟩
    exact hpast.trans_le hself.self.advanceUtf8.start_le
  · rename_i hlow
    refine ⟨h.move hself.advance (boundary_advance hlt' (UInt8.not_le.mp hlow)) _, ?_⟩
    exact hpast.trans_le (le_advance t)

/-- The loop over a literal is left at its end, or where the literal was given up. -/
def Read (L : Lexer) : Literal ⊕ Lexer → Prop
  | .inl lit => Reads L lit ∧ (lit.lexer.atEnd = true ∨ lit.lexer.peek = '"'.toUInt8)
  | .inr lx => Scanned L lx

theorem stringBrace_spec (hscan : Scans scan (L.interpDepth + 1)) (h : Reads L lit)
    (hpeek : lit.lexer.peek = '\x7b'.toUInt8) :
    (∃ lit', stringBrace scan L.pos lit = some (.inl lit') ∧ Reads L lit' ∧
        lit.lexer.pos < lit'.lexer.pos) ∨
      ∃ r, stringBrace scan L.pos lit = some (.inr r) ∧ Read L r := by
  have hlt : lit.lexer.pos < lit.lexer.bytes.length := lt_of_peek_ne (by rw [hpeek]; decide)
  rw [stringBrace]
  split
  · exact .inl ⟨_, rfl, h.advance hlt (by rw [hpeek]; decide) _⟩
  · rcases interpolation_spec hscan h hpeek with ⟨lit', heq, hreads, hlt⟩ | ⟨lx, heq, hscanned⟩
    · rw [heq]
      exact .inl ⟨lit', rfl, hreads, hlt⟩
    · rw [heq]
      exact .inr ⟨.inr lx, rfl, hscanned⟩

theorem stringStep_spec (hscan : Scans scan (L.interpDepth + 1)) (h : Reads L lit) :
    (∃ lit', stringStep scan L.pos lit = some (.inl lit') ∧ Reads L lit' ∧
        lit.lexer.pos < lit'.lexer.pos) ∨
      ∃ r, stringStep scan L.pos lit = some (.inr r) ∧ Read L r := by
  rw [stringStep]
  split
  · rename_i hstop
    rw [Bool.or_eq_true, beq_iff_eq] at hstop
    exact .inr ⟨.inl lit, rfl, h, hstop⟩
  rename_i hgo
  rw [Bool.or_eq_true, not_or, Bool.not_eq_true, atEnd_eq_false] at hgo
  have hlt := hgo.1
  split
  · rename_i hopen
    split
    · rename_i hdouble
      have hpair : lit.lexer.atPair '\x7b' '\x7b' = true := by
        rw [atPair, hopen, hdouble]
        rfl
      exact .inl ⟨_, rfl, h.pair (by decide) (by decide) (by decide) hpair _⟩
    · obtain ⟨hwarned, hpos, hpeek⟩ := h.warnDollar
      rw [← hpos]
      exact stringBrace_spec hscan hwarned (hpeek.trans (beq_iff_eq.mp hopen))
  split
  · rename_i hpair
    exact .inl ⟨_, rfl, h.pair (by decide) (by decide) (by decide) hpair _⟩
  split
  · rename_i hescape
    rw [beq_iff_eq] at hescape
    exact .inl ⟨_, rfl, h.stringEscape hlt (by rw [hescape]; decide)⟩
  · exact .inl ⟨_, rfl, h.advanceUtf8 hlt _⟩

/-! ### All of a literal -/

theorem Reads.remaining_lt {lit' : Literal} (h : Reads L lit) (h' : Reads L lit')
    (hlt : lit.lexer.pos < lit'.lexer.pos) : lit'.lexer.remaining < lit.lexer.remaining := by
  obtain ⟨ps, hps, -⟩ := h.emits
  obtain ⟨qs, hqs, -⟩ := h'.emits
  refine Lexer.remaining_lt (hqs.bytes.trans hps.bytes.symm) hlt ?_
  rw [hps.bytes]
  exact hqs.pos_le

theorem stringLoop_spec (hscan : Scans scan (L.interpDepth + 1)) (h : Reads L lit) :
    ∃ r, iterate (stringStep scan L.pos) lit.lexer.rounds lit = some r ∧ Read L r := by
  refine iterate_spec (fun lit : Literal => lit.lexer.remaining) (fun lit hlit => ?_) h
    (remaining_lt_rounds rfl)
  rcases stringStep_spec hscan hlit with ⟨lit', heq, hreads, hlt⟩ | hstop
  · exact .inl ⟨lit', heq, hreads, hlit.remaining_lt hreads hlt⟩
  · exact .inr hstop

/-- The closing quote is passed over, or its absence is reported. -/
theorem Reads.close (h : Reads L lit)
    (hstop : lit.lexer.atEnd = true ∨ lit.lexer.peek = '"'.toUInt8) :
    ScansFrom L ((if lit.lexer.atEnd then
        lit.lexer.emitDiag (unterminatedString lit.lexer L.pos lit.hasInterpolation)
      else lit.lexer.advance).emit (if lit.hasInterpolation then .stringPart else .string) L.pos
        (if lit.lexer.atEnd then
          lit.lexer.emitDiag (unterminatedString lit.lexer L.pos lit.hasInterpolation)
        else lit.lexer.advance).pos lit.text) := by
  obtain ⟨ps, hps, hnone⟩ := h.emits
  have hkind : PartKind L ps (if lit.hasInterpolation then .stringPart else .string) := by
    split at hnone
    · rename_i hhas
      exact .inl ⟨if_pos hhas, .inr hnone⟩
    · rename_i hhas
      exact .inr ⟨if_neg hhas, hnone⟩
  split
  · exact (hps.emitDiag _).scansPart h.past h.boundary hkind _
  · rename_i hend
    have hquote := hstop.resolve_left hend
    have hb : Boundary lit.lexer.advance :=
      boundary_advance (atEnd_eq_false.mp (Bool.eq_false_iff.mpr hend)) (by rw [hquote]; decide)
    exact hps.advance.scansPart (h.past.trans_le (le_advance _)) hb hkind _

/-- Behind the opening quote. -/
theorem Emits.scansString (h : Emits L lx []) (hlt : L.pos < lx.pos) (hb : Boundary lx)
    (hscan : L.interpDepth < maxInterpDepth → Scans scan (L.interpDepth + 1)) :
    ScansFrom L (scanString scan lx L.pos) := by
  rw [scanString]
  split
  · have hend := (h.emitDiag (tooDeep lx L.pos)).self.moveTo (h.bytes ▸ h.pos_le)
      (le_refl lx.bytes.length)
    have hb' : Boundary { lx.emitDiag (tooDeep lx L.pos) with pos := lx.bytes.length } :=
      boundary_of_atEnd (h.bytes ▸ le_rfl) (atEnd_iff.mpr le_rfl)
    exact (h.emitDiag _).scans hlt hend hb' (by decide) ""
  · rename_i hdepth
    rw [Nat.not_le, h.interpDepth] at hdepth
    have hstart : Reads L ⟨lx, "", false⟩ := ⟨hlt, hb, [], h, rfl⟩
    obtain ⟨r, heq, hr⟩ := stringLoop_spec (hscan hdepth) hstart
    rw [heq]
    cases r with
    | inl lit => exact hr.1.close hr.2
    | inr lx' => exact ⟨lx', rfl, hr⟩

end Kryos.Lexer

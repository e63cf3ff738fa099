import Kryos.Lexer.Moves

/-!
# Tokens without interpolations

Each of the functions that scan a token is called behind the first byte of the token. It emits one
token, for the bytes from there to where it stops, and stops between two characters (`Scanned`).
-/

namespace Kryos.Lexer

open VariantLoop Kryos.Parser

variable {L lx lx' : Lexer} {ps : List Piece}

/-- The lexer scanned a token that begins at `L`. Other tokens may have come before its end, and
none after it. -/
def Scanned (L lx : Lexer) : Prop :=
  L.pos < lx.pos ∧ Boundary lx ∧ ∃ ps kind, Emits L lx (ps ++ [⟨kind, L.pos, lx.pos⟩])

/-- The answer is a lexer that scanned a token. -/
def ScansFrom (L : Lexer) (answer : Option Lexer) : Prop := ∃ lx, answer = some lx ∧ Scanned L lx

theorem Emits.self (h : Emits L lx ps) : Emits lx lx [] :=
  .refl (h.bytes ▸ h.pos_le) h.lastTokenEnd_le

variable {kind : TokenKind}

/-- The token that began at `L`, of which `lx` is behind the first byte, ends at `lx'`. -/
theorem Emits.scans (h : Emits L lx []) (hlt : L.pos < lx.pos) (h' : Emits lx lx' [])
    (hb : Boundary lx') (hkind : kind ≠ .eof) (text : String) :
    ScansFrom L (lx'.emit kind L.pos lx'.pos text) := by
  have hpast : L.pos < lx'.pos := hlt.trans_le h'.start_le
  obtain ⟨out, heq, hpos, -, hemits⟩ := (h.trans h').emit le_rfl hpast.le hkind (.inl nofun) text
  refine ⟨out, heq, hpos ▸ hpast, ?_, [], kind, hpos.symm ▸ hemits⟩
  rw [Boundary, hpos, hemits.src, ← (h.trans h').src]
  exact hb

/-- The same, when the text of the token is taken from the source. -/
theorem Emits.scansText (h : Emits L lx []) (hL : Boundary L) (hlt : L.pos < lx.pos)
    (h' : Emits lx lx' []) (hb : Boundary lx') (hkind : kind ≠ .eof) :
    ScansFrom L (lx'.emitText kind L.pos) := by
  rw [Boundary, ← (h.trans h').src] at hL
  obtain ⟨text, htext⟩ := exists_slice (hlt.trans_le h'.start_le).le hL hb
  rw [emitText, htext]
  exact h.scans hlt h' hb hkind text

/-! ### Operators -/

theorem Emits.scansOperator (h : Emits L lx []) (hlt : L.pos < lx.pos) (hb : Boundary lx)
    {longer : List (Char × TokenKind × String)} (hkind : kind ≠ .eof)
    (hlonger : ∀ op ∈ longer, op.1.toUInt8 < 0x80 ∧ op.2.1 ≠ .eof) (text : String) :
    ScansFrom L (lx.scanOperator L.pos kind text longer) := by
  rw [scanOperator]
  split
  · rename_i c kind' text' hfind
    obtain ⟨hascii, hkind'⟩ := hlonger _ (List.mem_of_find?_eq_some hfind)
    have hmatch := List.find?_some hfind
    exact h.scans hlt h.self.advance (boundary_matchChar hascii hmatch) hkind' text'
  · exact h.scans hlt h.self hb hkind text

theorem Emits.scansDots (h : Emits L lx []) (hlt : L.pos < lx.pos) (hb : Boundary lx) :
    ScansFrom L (lx.scanDots L.pos) := by
  rw [scanDots]
  split
  · rename_i hmatch
    have hpast : L.pos < lx.advance.pos := hlt.trans_le h.self.advance.start_le
    exact h.advance.scansOperator hpast (boundary_matchChar (by decide) hmatch) (by decide)
      (by decide) _
  · exact h.scans hlt h.self hb (by decide) _

/-! ### Characters -/

theorem Emits.charContent (h : Emits L lx ps) : Emits L lx.charContent.2 ps := by
  rw [Lexer.charContent]
  split
  · exact h.advance.advance
  · exact h.advanceUtf8

/-- Wherever the content ends, the literal ends between two characters. -/
theorem Emits.closeChar (h : Emits L lx ps) (start : ℕ) :
    ∃ lx', lx.closeChar start = some lx' ∧ Emits L lx' ps ∧ Boundary lx' := by
  have hquote : ('\''.toUInt8 : UInt8) < 0x80 := by decide
  have hpos : lx.pos ≤ lx.bytes.length := h.bytes ▸ h.pos_le
  rw [Lexer.closeChar]
  split
  · rename_i hmatch
    exact ⟨_, rfl, h.advance, boundary_matchChar hquote hmatch⟩
  split
  · rename_i hend
    exact ⟨_, rfl, h.emitDiag _, boundary_of_atEnd hpos hend⟩
  · obtain ⟨lx', heq, h', -, -, hstop⟩ :=
      h.advanceUtf8While fun b => b != '\''.toUInt8 && b != '\n'.toUInt8
    have hpos' : lx'.pos ≤ lx'.bytes.length := h'.bytes ▸ h'.pos_le
    rw [heq]
    show ∃ lx'', (if lx'.matchChar '\'' then _ else _) = some lx'' ∧ _
    split
    · rename_i hmatch
      exact ⟨_, rfl, h'.advance.emitDiag _, boundary_matchChar hquote hmatch⟩
    · refine ⟨_, rfl, h'.emitDiag _, ?_⟩
      rcases hstop with hend | hstop
      · exact boundary_of_atEnd hpos' hend
      · -- The search stopped at a quote or at the end of the line, both of them ASCII.
        have hascii : lx'.peek = '\''.toUInt8 ∨ lx'.peek = '\n'.toUInt8 := by
          rwa [Bool.and_eq_false_iff, bne_eq_false_iff_eq, bne_eq_false_iff_eq] at hstop
        have hne : lx'.peek ≠ 0 := by
          rcases hascii with h | h <;> rw [h] <;> decide
        have hlow : lx'.peek < 0x80 := by
          rcases hascii with h | h <;> rw [h] <;> decide
        exact boundary_of_ascii (lt_of_peek_ne hne) hlow

theorem Emits.scansChar (h : Emits L lx []) (hlt : L.pos < lx.pos) :
    ScansFrom L (lx.scanChar L.pos) := by
  rw [scanChar]
  split
  · rename_i hmatch
    exact h.scans hlt (h.self.advance.emitDiag _) (boundary_matchChar (by decide) hmatch)
      (by decide) _
  · obtain ⟨lx', heq, h', hb⟩ := h.self.charContent.closeChar L.pos
    show ScansFrom L ((lx.charContent.2.closeChar L.pos).bind _)
    rw [heq]
    exact h.scans hlt h' hb (by decide) _

/-! ### Numbers -/

/-- A run over bytes that are all ASCII. -/
theorem Emits.run (h : Emits L lx ps) (hb : Boundary lx) {p : UInt8 → Bool}
    (hp : ∀ b, p b = true → b < 0x80) :
    Emits L (lx.advanceWhile p) ps ∧ Boundary (lx.advanceWhile p) := by
  have hrun := h.advanceWhile p
  exact ⟨hrun, boundary_advanceWhile_ascii hp hb (h.bytes ▸ hrun.pos_le)⟩

variable {b : UInt8}

theorem ascii_of_le {c : UInt8} (h : b ≤ c) (hc : c < 0x80) : b < 0x80 :=
  UInt8.lt_of_le_of_lt h hc

theorem ascii_of_digit (h : isDigit b = true) : b < 0x80 := by
  rw [isDigit, Bool.and_eq_true, decide_eq_true_eq, decide_eq_true_eq] at h
  exact ascii_of_le h.2 (by decide)

theorem ascii_of_digitOrMark (h : isDigitOrMark b = true) : b < 0x80 := by
  rw [isDigitOrMark, Bool.or_eq_true, beq_iff_eq] at h
  rcases h with h | rfl
  · exact ascii_of_digit h
  · decide

theorem ascii_of_hexDigit (h : isHexDigit b = true) : b < 0x80 := by
  rw [isHexDigit, Bool.or_eq_true, Bool.or_eq_true, Bool.and_eq_true, Bool.and_eq_true] at h
  simp only [decide_eq_true_eq] at h
  rcases h with (h | h) | h
  · exact ascii_of_digit h
  · exact ascii_of_le h.2 (by decide)
  · exact ascii_of_le h.2 (by decide)

theorem ascii_of_radix {r : Char × Char × (UInt8 → Bool)} (hr : r ∈ radixes) :
    r.1.toUInt8 < 0x80 ∧ r.2.1.toUInt8 < 0x80 ∧ ∀ b, r.2.2 b = true → b < 0x80 := by
  simp only [radixes, List.mem_cons, List.not_mem_nil, or_false] at hr
  rcases hr with rfl | rfl | rfl
  · refine ⟨by decide, by decide, fun b hb => ?_⟩
    rcases Bool.or_eq_true _ _ ▸ hb with hb | hb
    · exact ascii_of_hexDigit hb
    · exact beq_iff_eq.mp hb ▸ (by decide)
  · refine ⟨by decide, by decide, fun b hb => ?_⟩
    simp only [Bool.or_eq_true, beq_iff_eq] at hb
    rcases hb with (rfl | rfl) | rfl <;> decide
  · refine ⟨by decide, by decide, fun b hb => ?_⟩
    simp only [Bool.or_eq_true, Bool.and_eq_true, beq_iff_eq, decide_eq_true_eq] at hb
    rcases hb with hb | rfl
    · exact ascii_of_le hb.2 (by decide)
    · decide

theorem Emits.fraction (h : Emits L lx ps) (hb : Boundary lx) :
    Emits L lx.fraction.2 ps ∧ Boundary lx.fraction.2 := by
  rw [Lexer.fraction]
  split
  · rename_i hdot
    have hb' := boundary_matchChar (by decide) (Bool.and_eq_true _ _ ▸ hdot).1
    exact h.advance.run hb' fun b => ascii_of_digitOrMark
  · exact ⟨h, hb⟩

theorem boundary_matchChar_or {c d : Char} (hc : c.toUInt8 < 0x80) (hd : d.toUInt8 < 0x80)
    (h : (lx.matchChar c || lx.matchChar d) = true) : Boundary lx.advance := by
  rcases Bool.or_eq_true _ _ ▸ h with h | h
  · exact boundary_matchChar hc h
  · exact boundary_matchChar hd h

theorem Emits.sign (h : Emits L lx ps) (hb : Boundary lx) :
    Emits L lx.sign ps ∧ Boundary lx.sign := by
  rw [Lexer.sign]
  split
  · rename_i hsign
    exact ⟨h.advance, boundary_matchChar_or (by decide) (by decide) hsign⟩
  · exact ⟨h, hb⟩

theorem Emits.exponentDigits (h : Emits L lx ps) (hb : Boundary lx) (start : ℕ) :
    Emits L (lx.exponentDigits start) ps ∧ Boundary (lx.exponentDigits start) := by
  obtain ⟨h', hb'⟩ := h.run hb fun b => ascii_of_digit
  rw [Lexer.exponentDigits]
  split
  · exact ⟨h'.emitDiag _, hb'⟩
  · exact ⟨h', hb'⟩

theorem Emits.exponent (h : Emits L lx ps) (hb : Boundary lx) (start : ℕ) :
    Emits L (lx.exponent start).2 ps ∧ Boundary (lx.exponent start).2 := by
  rw [Lexer.exponent]
  split
  · rename_i hletter
    obtain ⟨h', hb'⟩ := h.advance.sign (boundary_matchChar_or (by decide) (by decide) hletter)
    exact h'.exponentDigits hb' start
  · exact ⟨h, hb⟩

theorem Emits.scansNumber (h : Emits L lx []) (hL : Boundary L) (hlt : L.pos < lx.pos)
    (hb : Boundary lx) : ScansFrom L (lx.scanNumber L.pos) := by
  rw [scanNumber]
  split
  · rename_i c d isRadixDigit hradix
    split at hradix
    · obtain ⟨hc, hd, hdigit⟩ := ascii_of_radix (List.mem_of_find?_eq_some hradix)
      have hmatch := List.find?_some hradix
      obtain ⟨h', hb'⟩ := h.self.advance.run (boundary_matchChar_or hc hd hmatch) hdigit
      exact h.scansText hL hlt h' hb' (by decide)
    · cases hradix
  · obtain ⟨h₁, hb₁⟩ := h.self.run hb fun b => ascii_of_digitOrMark
    obtain ⟨h₂, hb₂⟩ := h₁.fraction hb₁
    obtain ⟨h₃, hb₃⟩ := h₂.exponent hb₂ L.pos
    refine h.scansText hL hlt h₃ hb₃ ?_
    split <;> decide

/-! ### Words -/

theorem wordKind_ne_eof (word : String) : wordKind word ≠ .eof := by
  have hkeywords : ∀ k ∈ keywords, k.2 ≠ .eof := by decide
  rw [wordKind]
  split
  · rename_i kind hlookup
    obtain ⟨l₁, l₂, heq, -⟩ := List.lookup_eq_some_iff.mp hlookup
    exact hkeywords (word, kind) (heq ▸ List.mem_append_right l₁ List.mem_cons_self)
  · split <;> decide

theorem ascii_of_word (h : (isWordStart b || isDigit b) = true) : b < 0x80 := by
  simp only [isWordStart, Bool.or_eq_true, Bool.and_eq_true, decide_eq_true_eq, beq_iff_eq] at h
  rcases h with ((h | h) | rfl) | h
  · exact ascii_of_le h.2 (by decide)
  · exact ascii_of_le h.2 (by decide)
  · decide
  · exact ascii_of_digit h

/-- A word is a run of whole characters. -/
theorem Emits.word (h : Emits L lx ps) (hb : Boundary lx) :
    ∃ r, iterate wordStep lx.rounds (false, lx) = some r ∧ Emits L r.2 ps ∧ Boundary r.2 := by
  refine iterate_spec (fun t : Bool × Lexer => t.2.remaining)
    (I := fun t => Emits L t.2 ps ∧ Boundary t.2) ?_ ⟨h, hb⟩ (remaining_lt_rounds rfl)
  rintro ⟨hasNonAscii, t⟩ ⟨ht, hbt⟩
  rw [wordStep]
  split
  · exact .inr ⟨_, rfl, ht, hbt⟩
  rename_i hend
  have hlt := atEnd_eq_false.mp (Bool.eq_false_iff.mpr hend)
  split
  · rename_i hword
    exact .inl ⟨_, rfl, ⟨ht.advance, boundary_advance hlt (ascii_of_word hword)⟩,
      remaining_advance hlt⟩
  split
  · exact .inl ⟨_, rfl, ⟨ht.advanceUtf8, boundary_advanceUtf8 hbt⟩, remaining_advanceUtf8 hlt⟩
  · exact .inr ⟨_, rfl, ht, hbt⟩

theorem Emits.scansIdentifier (h : Emits L lx []) (hL : Boundary L) (hlt : L.pos < lx.pos)
    (hb : Boundary lx) : ScansFrom L (lx.scanIdentifier L.pos) := by
  obtain ⟨⟨hasNonAscii, lx'⟩, heq, h', hb'⟩ := h.self.word hb
  rw [Boundary, ← (h.trans h').src] at hL
  obtain ⟨text, htext⟩ := exists_slice (hlt.trans_le h'.start_le).le hL hb'
  rw [scanIdentifier, heq]
  show ScansFrom L ((lx'.slice L.pos lx'.pos).bind _)
  rw [htext]
  show ScansFrom L (if hasNonAscii then _ else _)
  split
  · exact h.scans hlt (h'.emitDiag _) hb' (by decide) _
  · exact h.scans hlt h' hb' (wordKind_ne_eof text) _

/-- The test of the source for a continuation byte. -/
theorem continuation_mask (b : UInt8) : (b &&& 0xC0 == 0x80) = Utf8.isContinuation b := by
  have h : ∀ n < 256, (UInt8.ofNat n &&& 0xC0 == 0x80) = Utf8.isContinuation (UInt8.ofNat n) := by
    decide +kernel
  have hb := h b.toNat b.toNat_lt
  rwa [UInt8.ofNat_toNat] at hb

theorem Emits.scansNonAscii (h : Emits L lx []) (hL : Boundary L) (hlt : L.pos < lx.pos) :
    ScansFrom L (lx.scanNonAscii L.pos) := by
  have h₁ := h.self.advanceWhile fun b => b &&& 0xC0 == 0x80
  have hb₁ : Boundary (lx.advanceWhile fun b => b &&& 0xC0 == 0x80) := by
    refine boundary_advanceWhile_stop (fun b hb => ?_) (h.self.bytes ▸ h₁.pos_le)
    rwa [continuation_mask] at hb
  obtain ⟨lx', heq, h', -, hb', -⟩ := h₁.advanceUtf8While fun b => 0x80 ≤ b
  have hb' := hb' hb₁
  rw [Boundary, ← (h.trans h').src] at hL
  obtain ⟨text, htext⟩ := exists_slice (hlt.trans_le h'.start_le).le hL hb'
  rw [scanNonAscii, heq]
  show ScansFrom L ((lx'.slice L.pos lx'.pos).bind _)
  rw [htext]
  exact h.scans hlt (h'.emitDiag _) hb' (by decide) _

end Kryos.Lexer

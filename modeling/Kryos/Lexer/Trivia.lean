import Mathlib
import Kryos.Lexer.Simple

/-!
# Whitespace and comments

What stands between the tokens: whitespace, line comments, and block comments, which nest. A block
comment that is never closed reaches to the end of the source. The lexer counts the open block
comments in 32 bits; in a source whose offsets fit in 32 bits the count never wraps around.

`Covers` says that nothing else stands between the pieces of a segment.
-/

namespace Kryos.Lexer

open VariantLoop Kryos.Parser

variable {L lx lx' : Lexer} {bs : List UInt8} {a b c : ℕ} {ps qs : List Piece}

/-! ### Comments -/

def PairAt (bs : List UInt8) (i : ℕ) (c d : Char) : Prop :=
  bs.getD i 0 = c.toUInt8 ∧ bs.getD (i + 1) 0 = d.toUInt8

/-- From `//` up to the end of the line. -/
def LineComment (bs : List UInt8) (a b : ℕ) : Prop :=
  PairAt bs a '/' '/' ∧ (∀ i, a ≤ i → i < b → bs.getD i 0 ≠ '\n'.toUInt8) ∧
    (b < bs.length → bs.getD b 0 = '\n'.toUInt8)

/-- With `n` comments open at `i`, all of them are closed at `b`, or `b` is the end. -/
inductive Nested (bs : List UInt8) : ℕ → ℕ → ℕ → Prop
  | closed (i : ℕ) : Nested bs 0 i i
  | unterminated (n : ℕ) : Nested bs (n + 1) bs.length bs.length
  | opening {n i b : ℕ} (h : PairAt bs i '/' '*') (hrest : Nested bs (n + 2) (i + 2) b) :
      Nested bs (n + 1) i b
  | closing {n i b : ℕ} (h : PairAt bs i '*' '/') (hrest : Nested bs n (i + 2) b) :
      Nested bs (n + 1) i b
  | byte {n i b : ℕ} (hopen : ¬ PairAt bs i '/' '*') (hclose : ¬ PairAt bs i '*' '/')
      (hi : i < bs.length) (hrest : Nested bs (n + 1) (i + 1) b) : Nested bs (n + 1) i b

def BlockComment (bs : List UInt8) (a b : ℕ) : Prop :=
  PairAt bs a '/' '*' ∧ Nested bs 1 (a + 2) b

/-- The byte at `i` belongs to a piece, to whitespace, or to a comment between the pieces. -/
def Covered (bs : List UInt8) (a b : ℕ) (ps : List Piece) (i : ℕ) : Prop :=
  (∃ p ∈ ps, p.start ≤ i ∧ i < p.stop) ∨ isSpace (bs.getD i 0) = true ∨
    ∃ c d, (LineComment bs c d ∨ BlockComment bs c d) ∧ a ≤ c ∧ d ≤ b ∧ c ≤ i ∧ i < d ∧
      ∀ p ∈ ps, p.stop ≤ c ∨ d ≤ p.start

def Covers (bs : List UInt8) (a b : ℕ) (ps : List Piece) : Prop :=
  ∀ i, a ≤ i → i < b → Covered bs a b ps i

theorem Covers.append (h : Covers bs a b ps) (h' : Covers bs b c qs) (hps : Segment a b ps)
    (hqs : Segment b c qs) (hab : a ≤ b) (hbc : b ≤ c) : Covers bs a c (ps ++ qs) := by
  intro i hi hic
  rcases Nat.lt_or_ge i b with hib | hib
  · rcases h i hi hib with ⟨p, hp, hmem⟩ | hspace | ⟨u, v, hcomment, hau, hvb, hui, hiv, hps'⟩
    · exact .inl ⟨p, List.mem_append_left _ hp, hmem⟩
    · exact .inr (.inl hspace)
    · refine .inr (.inr ⟨u, v, hcomment, hau, hvb.trans hbc, hui, hiv, fun p hp => ?_⟩)
      rcases List.mem_append.mp hp with hp | hp
      · exact hps' p hp
      · exact .inr (hvb.trans (hqs.within p hp).1)
  · rcases h' i hib hic with ⟨p, hp, hmem⟩ | hspace | ⟨u, v, hcomment, hbu, hvc, hui, hiv, hqs'⟩
    · exact .inl ⟨p, List.mem_append_right _ hp, hmem⟩
    · exact .inr (.inl hspace)
    · refine .inr (.inr ⟨u, v, hcomment, hab.trans hbu, hvc, hui, hiv, fun p hp => ?_⟩)
      rcases List.mem_append.mp hp with hp | hp
      · exact .inl ((hps.within p hp).2.2.trans hbu)
      · exact hqs' p hp

/-! ### What a part of the lexer does -/

/-- From `L` to `lx`, nothing was left out of the pieces but whitespace and comments. -/
def Lexes (L lx : Lexer) : Prop :=
  Boundary lx ∧ ∃ ps, Emits L lx ps ∧
    (L.bytes.length < 2 ^ 32 → Covers L.bytes L.pos lx.pos ps)

/-- The answer is a lexer that went on and left nothing out. -/
def LexesPast (L : Lexer) (answer : Option Lexer) : Prop :=
  ∃ lx, answer = some lx ∧ Lexes L lx ∧ L.pos < lx.pos

theorem Lexes.refl (h : Emits lx lx []) (hb : Boundary lx) : Lexes lx lx :=
  ⟨hb, [], h, fun _ _ hi hlt => absurd hlt (Nat.not_lt.mpr hi)⟩

theorem Lexes.trans (h : Lexes L lx) (h' : Lexes lx lx') : Lexes L lx' := by
  obtain ⟨-, ps, hps, hcovers⟩ := h
  obtain ⟨hb, qs, hqs, hcovers'⟩ := h'
  refine ⟨hb, ps ++ qs, hps.trans hqs, fun hlen => ?_⟩
  rw [hps.bytes] at hcovers'
  exact (hcovers hlen).append (hcovers' hlen) hps.segment hqs.segment hps.start_le hqs.start_le

/-- A token covers its bytes, whatever it is made of. -/
theorem Scanned.lexes (h : Scanned L lx) : Lexes L lx := by
  obtain ⟨-, hb, ps, kind, hemits⟩ := h
  refine ⟨hb, _, hemits, fun _ i hi hlt => .inl ⟨⟨kind, L.pos, lx.pos⟩, ?_, hi, hlt⟩⟩
  exact List.mem_append_right ps List.mem_cons_self

theorem peekAt_advance (hlt : lx.pos < lx.bytes.length) (k : ℕ) :
    lx.advance.peekAt k = lx.peekAt (k + 1) := by
  rw [advance_of_lt hlt]
  show lx.bytes.getD (lx.pos + 1 + k) 0 = lx.bytes.getD (lx.pos + (k + 1)) 0
  rw [Nat.add_assoc, Nat.add_comm 1 k]

theorem peekAt_zero (lx : Lexer) : lx.peekAt 0 = lx.peek := rfl

theorem atPair_iff {c d : Char} : lx.atPair c d = true ↔ PairAt lx.bytes lx.pos c d := by
  rw [atPair, Bool.and_eq_true, beq_iff_eq, beq_iff_eq]
  exact Iff.rfl

/-- A pair of bytes that are not there would be zeros. -/
theorem pair_in_range {c d : Char} (hc : c.toUInt8 ≠ 0) (hd : d.toUInt8 ≠ 0)
    (h : lx.atPair c d = true) :
    lx.pos + 1 < lx.bytes.length ∧ lx.advance.advance = { lx with pos := lx.pos + 2 } := by
  obtain ⟨hfirst, hsecond⟩ := atPair_iff.mp h
  have hlt : lx.pos < lx.bytes.length := lt_of_peek_ne (by rw [peek, hfirst]; exact hc)
  have hnext : lx.advance.pos < lx.advance.bytes.length := by
    refine lt_of_peek_ne ?_
    rw [← peekAt_zero, peekAt_advance hlt, peekAt, hsecond]
    exact hd
  rw [advance_of_lt hlt] at hnext
  refine ⟨hnext, ?_⟩
  rw [advance_of_lt hlt]
  exact advance_of_lt hnext

/-! ### Whitespace -/

theorem ascii_of_space {b : UInt8} (h : isSpace b = true) : b < 0x80 := by
  simp only [isSpace, Bool.or_eq_true, beq_iff_eq] at h
  rcases h with ((rfl | rfl) | rfl) | rfl <;> decide

theorem Emits.lexesSpaces (h : Emits lx lx []) (hb : Boundary lx) :
    Lexes lx (lx.advanceWhile isSpace) := by
  obtain ⟨h', hb'⟩ := h.run hb fun b => ascii_of_space
  exact ⟨hb', [], h', fun _ i hi hlt => .inr (.inl ((advanceWhile_stop lx isSpace).1 i hi hlt))⟩

/-! ### Line comments -/

theorem continuation_of_newline {b : UInt8} (h : notNewline b = false) :
    Utf8.isContinuation b = false := by
  rw [notNewline, bne_eq_false_iff_eq] at h
  rw [h]
  decide

theorem le_advance (lx : Lexer) : lx.pos ≤ lx.advance.pos := by
  rw [advance]
  split
  · exact le_rfl
  · exact Nat.le_succ _

section

variable (h : Emits lx lx []) (hpair : lx.atPair '/' '/' = true)

include h hpair

/-- The content of a doc comment begins between two characters. -/
theorem Emits.docContent (hthird : lx.peekAt 2 = '/'.toUInt8) :
    Emits lx lx.docContent [] ∧ lx.pos < lx.docContent.pos ∧ Boundary lx.docContent := by
  obtain ⟨-, htwo⟩ := pair_in_range (by decide) (by decide) hpair
  have h₂ := h.advance.advance
  rw [Lexer.docContent]
  have hpeek : lx.advance.advance.peek = '/'.toUInt8 := by
    rw [htwo]
    exact hthird
  have hpast₂ : lx.pos < lx.advance.advance.pos := by
    rw [htwo]
    exact Nat.lt_add_of_pos_right (by decide)
  generalize lx.advance.advance = t at h₂ hpeek hpast₂
  have hlt : t.pos < t.bytes.length := lt_of_peek_ne (by rw [hpeek]; decide)
  have hb := boundary_advance hlt (by rw [hpeek]; decide)
  have h₃ := h₂.advance
  have hpast₃ := hpast₂.trans_le (le_advance t)
  generalize t.advance = u at hb h₃ hpast₃
  split
  · rename_i hspace
    exact ⟨h₃.advance, hpast₃.trans_le (le_advance u), boundary_matchChar (by decide) hspace⟩
  · exact ⟨h₃, hpast₃, hb⟩

theorem Emits.lexesDoc (hthird : lx.peekAt 2 = '/'.toUInt8) : LexesPast lx lx.docComment := by
  obtain ⟨h₁, hlt, hb⟩ := h.docContent hpair hthird
  rw [docComment]
  generalize lx.docContent = t at h₁ hlt hb
  have h₂ := h₁.self.advanceWhile notNewline
  have hb₂ := boundary_advanceWhile_stop (fun b => continuation_of_newline) h₂.pos_le
  have hb₁ : Utf8.IsBoundary (t.advanceWhile notNewline).src t.pos := h₂.src ▸ hb
  obtain ⟨text, htext⟩ := exists_slice h₂.start_le hb₁ hb₂
  have hkind : TokenKind.docComment ≠ .eof := by decide
  obtain ⟨out, heq, hscanned⟩ := h₁.scans hlt h₂ hb₂ hkind (trimEnd text)
  refine ⟨out, ?_, hscanned.lexes, hscanned.1⟩
  show ((t.advanceWhile notNewline).slice _ _).bind _ = _
  rw [htext]
  exact heq

theorem Emits.lexesLine : LexesPast lx lx.lineComment := by
  rw [lineComment]
  split
  · rename_i hdoc
    exact h.lexesDoc hpair (beq_iff_eq.mp (Bool.and_eq_true _ _ ▸ hdoc).1)
  · obtain ⟨hpass, hstop⟩ := advanceWhile_stop lx notNewline
    have h' := h.advanceWhile notNewline
    have hb' := boundary_advanceWhile_stop (fun b => continuation_of_newline) h'.pos_le
    have hpast : lx.pos < (lx.advanceWhile notNewline).pos := by
      refine lt_of_le_of_ne h'.start_le fun heq => ?_
      have hlt := (pair_in_range (by decide) (by decide) hpair).1
      have hbyte : lx.bytes.getD (lx.advanceWhile notNewline).pos 0 = '/'.toUInt8 :=
        heq ▸ (atPair_iff.mp hpair).1
      have hfail := hstop (heq ▸ Nat.lt_of_succ_lt hlt)
      rw [peek, show (lx.advanceWhile notNewline).bytes = lx.bytes from rfl, hbyte] at hfail
      exact absurd hfail (by decide)
    refine ⟨_, rfl, ⟨hb', [], h', fun _ i hi hlt => ?_⟩, hpast⟩
    refine .inr (.inr ⟨lx.pos, (lx.advanceWhile notNewline).pos, .inl ⟨atPair_iff.mp hpair, ?_, ?_⟩,
      le_rfl, le_rfl, hi, hlt, by rintro _ ⟨⟩⟩)
    · intro j hj hjlt
      exact bne_iff_ne.mp (hpass j hj hjlt)
    · intro hend
      exact bne_eq_false_iff_eq.mp (hstop hend)

end

/-! ### Block comments -/

/-- The comments that are open, as the lexer counts them. -/
structure Open (lx : Lexer) (t : BitVec 32 × Lexer) : Prop where
  emits : Emits lx t.2 []
  past : lx.pos + 2 ≤ t.2.pos
  boundary : t.1 = 0 → Boundary t.2
  nested : lx.bytes.length < 2 ^ 32 → ∃ n, t.1 = BitVec.ofNat 32 n ∧ n ≤ t.2.pos ∧
    ∀ b, Nested lx.bytes n t.2.pos b → BlockComment lx.bytes lx.pos b

theorem ofNat_sub_one (n : ℕ) : BitVec.ofNat 32 (n + 1) - 1 = BitVec.ofNat 32 n := by
  refine BitVec.eq_of_toNat_eq ?_
  have hone : (1 : BitVec 32).toNat = 1 := rfl
  rw [BitVec.toNat_sub, BitVec.toNat_ofNat, BitVec.toNat_ofNat, hone]
  omega

theorem ofNat_eq_zero {n : ℕ} (h : n < 2 ^ 32) : BitVec.ofNat 32 n = 0 ↔ n = 0 := by
  constructor
  · intro heq
    have hnat := congrArg BitVec.toNat heq
    rwa [BitVec.toNat_ofNat, Nat.mod_eq_of_lt h] at hnat
  · rintro rfl
    rfl

theorem boundary_pair {c d : Char} (hc : c.toUInt8 ≠ 0) (hd : d.toUInt8 ≠ 0)
    (hascii : d.toUInt8 < 0x80) (h : lx.atPair c d = true) : Boundary lx.advance.advance := by
  obtain ⟨hlt, htwo⟩ := pair_in_range hc hd h
  have hsecond : lx.bytes[lx.pos + 1] = d.toUInt8 := by
    rw [← List.getD_eq_getElem _ 0 hlt]
    exact (atPair_iff.mp h).2
  rw [htwo]
  exact (Utf8.IsBoundary.of_ascii hlt (hsecond ▸ hascii)).2

/-- A comment is opened or closed. -/
theorem Open.pair {depth depth' : BitVec 32} {t : Lexer} {c d : Char} (h : Open lx (depth, t))
    (hc : c.toUInt8 ≠ 0) (hd : d.toUInt8 ≠ 0) (hascii : d.toUInt8 < 0x80)
    (hpair : t.atPair c d = true)
    (hnested : ∀ n, depth = BitVec.ofNat 32 n →
      ∃ n', depth' = BitVec.ofNat 32 n' ∧ n' ≤ n + 1 ∧
        ∀ b, Nested lx.bytes n' (t.pos + 2) b → Nested lx.bytes n t.pos b) :
    Open lx (depth', t.advance.advance) ∧ t.advance.advance.remaining < t.remaining := by
  obtain ⟨hlt, htwo⟩ := pair_in_range hc hd hpair
  have hpast : lx.pos + 2 ≤ t.advance.advance.pos :=
    h.past.trans ((le_advance t).trans (le_advance _))
  refine ⟨⟨h.emits.advance.advance, hpast, fun _ => boundary_pair hc hd hascii hpair,
    fun hlen => ?_⟩, ?_⟩
  · obtain ⟨n, hn, hle, hcomment⟩ := h.nested hlen
    have hle : n ≤ t.pos := hle
    obtain ⟨n', hn', hle', hnested⟩ := hnested n hn
    refine ⟨n', hn', ?_, fun b hb => hcomment b (hnested b ?_)⟩
    · rw [htwo]
      show n' ≤ t.pos + 2
      omega
    · rwa [htwo] at hb
  · rw [htwo]
    exact remaining_moveTo (Nat.lt_add_of_pos_right (by decide)) hlt

theorem Open.step {t : BitVec 32 × Lexer} (h : Open lx t) :
    (∃ t', blockStep t = some (.inl t') ∧ Open lx t' ∧ t'.2.remaining < t.2.remaining) ∨
      ∃ r, blockStep t = some (.inr r) ∧ Open lx r ∧ (r.2.atEnd = true ∨ r.1 = 0) := by
  obtain ⟨depth, t⟩ := t
  have hbytes : t.bytes = lx.bytes := h.emits.bytes
  rw [blockStep]
  split
  · rename_i hstop
    refine .inr ⟨_, rfl, h, ?_⟩
    rwa [Bool.or_eq_true, beq_iff_eq] at hstop
  rename_i hgo
  rw [Bool.or_eq_true, beq_iff_eq, not_or, Bool.not_eq_true, atEnd_eq_false] at hgo
  obtain ⟨hlt, hdepth⟩ := hgo
  have hsucc : ∀ n, depth = BitVec.ofNat 32 n → ∃ m, n = m + 1 := by
    rintro (_ | m) rfl
    · exact absurd rfl hdepth
    · exact ⟨m, rfl⟩
  split
  · rename_i hopen
    refine .inl ⟨_, rfl, h.pair (by decide) (by decide) (by decide) hopen fun n hn => ?_⟩
    obtain ⟨m, rfl⟩ := hsucc n hn
    rw [atPair_iff, hbytes] at hopen
    exact ⟨m + 2, by rw [hn]; exact (BitVec.ofNat_add _ _).symm, le_rfl, fun b => .opening hopen⟩
  rename_i hopen
  split
  · rename_i hclose
    refine .inl ⟨_, rfl, h.pair (by decide) (by decide) (by decide) hclose fun n hn => ?_⟩
    obtain ⟨m, rfl⟩ := hsucc n hn
    rw [atPair_iff, hbytes] at hclose
    exact ⟨m, by rw [hn, ofNat_sub_one m], by omega, fun b => .closing hclose⟩
  rename_i hclose
  refine .inl ⟨_, rfl, ⟨h.emits.advance, h.past.trans (le_advance t),
    fun hzero => absurd hzero hdepth, fun hlen => ?_⟩, remaining_advance hlt⟩
  obtain ⟨n, hn, hle, hcomment⟩ := h.nested hlen
  obtain ⟨m, rfl⟩ := hsucc n hn
  rw [atPair_iff, hbytes] at hopen hclose
  refine ⟨m + 1, hn, hle.trans (le_advance t), fun b hb => hcomment b ?_⟩
  have hnext : t.advance.pos = t.pos + 1 := by rw [advance_of_lt hlt]
  rw [hnext] at hb
  exact .byte hopen hclose (hbytes ▸ hlt) hb

/-- Where the loop stops, the comment is over. -/
theorem Open.comment {t : BitVec 32 × Lexer} (h : Open lx t) (hstop : t.2.atEnd = true ∨ t.1 = 0)
    (hlen : lx.bytes.length < 2 ^ 32) : BlockComment lx.bytes lx.pos t.2.pos := by
  obtain ⟨n, hn, hle, hcomment⟩ := h.nested hlen
  have hpos := h.emits.pos_le
  have hlt : n < 2 ^ 32 := by omega
  refine hcomment _ ?_
  cases n with
  | zero => exact .closed _
  | succ m =>
    rcases hstop with hend | hzero
    · rw [atEnd_iff, h.emits.bytes] at hend
      rw [le_antisymm hpos hend]
      exact .unterminated m
    · rw [hn] at hzero
      exact absurd ((ofNat_eq_zero hlt).mp hzero) (Nat.succ_ne_zero m)

theorem Emits.lexesBlock (h : Emits lx lx []) (hpair : lx.atPair '/' '*' = true) :
    LexesPast lx lx.blockComment := by
  obtain ⟨hlt, htwo⟩ := pair_in_range (by decide) (by decide) hpair
  have hopen : Open lx (1, lx.advance.advance) := by
    have hone : (1 : BitVec 32) ≠ 0 := by decide
    refine ⟨h.advance.advance, ?_, fun h => absurd h hone, fun _ => ⟨1, rfl, ?_, fun b hb => ?_⟩⟩
    · rw [htwo]
    · rw [htwo]
      exact Nat.le_add_left 1 (lx.pos + 1)
    · rw [htwo] at hb
      exact ⟨atPair_iff.mp hpair, hb⟩
  obtain ⟨⟨depth, t⟩, heq, hr, hstop⟩ :=
    iterate_spec (fun t : BitVec 32 × Lexer => t.2.remaining) (fun t => Open.step) hopen
      (remaining_lt_rounds h.advance.advance.bytes)
  have hb : Boundary t := by
    rcases hstop with hend | hzero
    · exact boundary_of_atEnd (hr.emits.bytes ▸ hr.emits.pos_le) hend
    · exact hr.boundary hzero
  have hcovers (hlen : lx.bytes.length < 2 ^ 32) : Covers lx.bytes lx.pos t.pos [] :=
    fun i hi hlt =>
      .inr (.inr ⟨lx.pos, t.pos, .inr (hr.comment hstop hlen), le_rfl, le_rfl, hi, hlt, nofun⟩)
  have hpast : lx.pos < t.pos := Nat.lt_of_succ_lt hr.past
  rw [blockComment, heq]
  show LexesPast lx (if depth == 0 then _ else _)
  split
  · exact ⟨t, rfl, ⟨hb, [], hr.emits, hcovers⟩, hpast⟩
  · exact ⟨_, rfl, ⟨hb, [], hr.emits.emitDiag _, hcovers⟩, hpast⟩

/-! ### Up to the next token -/

section

variable (h : Lexes L lx)

include h

theorem Lexes.self : Emits lx lx [] := by
  obtain ⟨-, ps, hps, -⟩ := h
  exact hps.self

theorem Lexes.bytes : lx.bytes = L.bytes := by
  obtain ⟨-, ps, hps, -⟩ := h
  exact hps.bytes

theorem Lexes.interpDepth : lx.interpDepth = L.interpDepth := by
  obtain ⟨-, ps, hps, -⟩ := h
  exact hps.interpDepth

theorem Lexes.emitDiag (diag : Diagnostic) : Lexes L (lx.emitDiag diag) := by
  obtain ⟨hb, ps, hps, hcovers⟩ := h
  exact ⟨hb, ps, hps.emitDiag diag, hcovers⟩

theorem Lexes.start_le : L.pos ≤ lx.pos := by
  obtain ⟨-, ps, hps, -⟩ := h
  exact hps.start_le

theorem Lexes.remaining_le : lx.remaining ≤ L.remaining := by
  rw [remaining, remaining, h.bytes]
  exact Nat.sub_le_sub_left h.start_le _

/-- A step of a loop that goes on. -/
theorem LexesPast.remaining {answer : Option Lexer} (h' : LexesPast lx answer) :
    ∃ lx', answer = some lx' ∧ Lexes L lx' ∧
      lx'.remaining < lx.remaining := by
  obtain ⟨lx', heq, hlexes, hlt⟩ := h'
  refine ⟨lx', heq, h.trans hlexes, remaining_lt hlexes.bytes hlt ?_⟩
  exact hlexes.bytes ▸ hlexes.1.pos_le

theorem skipStep_spec :
    (∃ lx', skipStep lx = some (.inl lx') ∧ Lexes L lx' ∧ lx'.remaining < lx.remaining) ∨
      ∃ lx', skipStep lx = some (.inr lx') ∧ Lexes L lx' := by
  have hspaces := h.self.lexesSpaces h.1
  have h' := h.trans hspaces
  have hle := hspaces.remaining_le
  rw [skipStep]
  generalize lx.advanceWhile isSpace = t at h' hle
  have hcomment {answer : Option Lexer} (hanswer : LexesPast t answer) :
      ∃ lx', answer.map Sum.inl = some (Sum.inl lx' : Lexer ⊕ Lexer) ∧ Lexes L lx' ∧
        lx'.remaining < lx.remaining := by
    obtain ⟨lx', heq, hlexes, hlt⟩ := hanswer.remaining h'
    exact ⟨lx', by rw [heq]; rfl, hlexes, hlt.trans_le hle⟩
  split
  · exact .inr ⟨t, rfl, h'⟩
  split
  · rename_i hpair
    exact .inl (hcomment (h'.self.lexesLine hpair))
  split
  · rename_i hpair
    exact .inl (hcomment (h'.self.lexesBlock hpair))
  · exact .inr ⟨t, rfl, h'⟩

end

/-- Wherever the lexer is, the search for the next token succeeds. -/
theorem skip_spec (h : Emits lx lx []) (hb : Boundary lx) :
    ∃ lx', lx.skipWhitespaceAndComments = some lx' ∧ Lexes lx lx' :=
  iterate_spec remaining (fun _ => skipStep_spec) (.refl h hb) (remaining_lt_rounds rfl)

end Kryos.Lexer

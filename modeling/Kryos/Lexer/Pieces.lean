import Mathlib
import Kryos.Lexer.Scan

/-!
# What the lexer emits

The tokens that a part of the lexer emits while it goes over a part of the source, as pieces of that
part: kinds with byte offsets. `Emits L lx ps` says that the lexer went from `L` to `lx` and emitted
the pieces `ps` on the way; every operation of the lexer has a rule for it.

Every piece follows the pieces before it. Only the later parts of an interpolated string begin where
its first part does, and enclose what was emitted since (`Follows`).
-/

namespace Kryos.Lexer

open Kryos.Parser

structure Piece where
  kind : TokenKind
  start : ℕ
  stop : ℕ

/-- The token was emitted for the piece. -/
def IsPiece (fileId : ℕ) (tok : Token) (p : Piece) : Prop :=
  tok.kind = p.kind ∧
    tok.span = { fileId, start := p.start % 2 ^ 32, stop := p.stop % 2 ^ 32 }

/-- The piece begins behind all the others, or it is a part of a string, of which the first part is
among the others, and encloses the pieces from that part on. -/
def Follows (ps : List Piece) (q : Piece) : Prop :=
  (∀ p ∈ ps, p.stop ≤ q.start) ∨
    q.kind = .stringPart ∧ ∃ earlier stop since,
      ps = earlier ++ ⟨.stringPart, q.start, stop⟩ :: since ∧ (∀ p ∈ earlier, p.stop ≤ q.start) ∧
        stop ≤ q.stop ∧ ∀ p ∈ since, q.start ≤ p.start ∧ p.stop ≤ q.stop

inductive Ordered : List Piece → Prop
  | nil : Ordered []
  | snoc {ps : List Piece} {q : Piece} (h : Ordered ps) (hq : Follows ps q) : Ordered (ps ++ [q])

/-- The pieces that were emitted for the bytes from `a` to `b`. -/
structure Segment (a b : ℕ) (ps : List Piece) : Prop where
  within : ∀ p ∈ ps, a ≤ p.start ∧ p.start ≤ p.stop ∧ p.stop ≤ b
  ordered : Ordered ps
  noEof : ∀ p ∈ ps, p.kind ≠ .eof

variable {a b c : ℕ} {ps qs : List Piece}

/-- Pieces further to the left do not matter. -/
theorem Follows.append {q : Piece} (h : Follows qs q) (hps : ∀ p ∈ ps, p.stop ≤ q.start) :
    Follows (ps ++ qs) q := by
  rcases h with h | ⟨hkind, earlier, stop, since, rfl, hearlier, hstop, hsince⟩
  · exact .inl fun p hp => (List.mem_append.mp hp).elim (hps p) (h p)
  · refine .inr ⟨hkind, ps ++ earlier, stop, since, (List.append_assoc ..).symm, fun p hp => ?_,
      hstop, hsince⟩
    exact (List.mem_append.mp hp).elim (hps p) (hearlier p)

theorem Ordered.append (h : Ordered ps) (h' : Ordered qs)
    (hle : ∀ p ∈ ps, ∀ q ∈ qs, p.stop ≤ q.start) : Ordered (ps ++ qs) := by
  induction h' with
  | nil => rwa [List.append_nil]
  | @snoc qs q h' hq ih =>
    rw [← List.append_assoc]
    refine .snoc (ih fun p hp r hr => hle p hp r (List.mem_append_left _ hr)) (hq.append ?_)
    exact fun p hp => hle p hp q (List.mem_append_right _ (List.mem_singleton_self q))

namespace Segment

theorem nil (a b : ℕ) : Segment a b [] := ⟨nofun, .nil, nofun⟩

theorem mono (h : Segment a b ps) (hb : b ≤ c) : Segment a c ps :=
  ⟨fun p hp => ⟨(h.within p hp).1, (h.within p hp).2.1, (h.within p hp).2.2.trans hb⟩, h.ordered,
    h.noEof⟩

theorem append (h : Segment a b ps) (h' : Segment b c qs) (hab : a ≤ b) (hbc : b ≤ c) :
    Segment a c (ps ++ qs) where
  within p hp := by
    rcases List.mem_append.mp hp with hp | hp
    · have := h.within p hp
      omega
    · have := h'.within p hp
      omega
  ordered := h.ordered.append h'.ordered fun p hp q hq =>
    (h.within p hp).2.2.trans (h'.within q hq).1
  noEof p hp := (List.mem_append.mp hp).elim (h.noEof p) (h'.noEof p)

theorem snoc (h : Segment a b ps) {q : Piece} (hq : a ≤ q.start ∧ q.start ≤ q.stop ∧ q.stop ≤ b)
    (hfollows : Follows ps q) (hkind : q.kind ≠ .eof) : Segment a b (ps ++ [q]) where
  within p hp := by
    rcases List.mem_append.mp hp with hp | hp
    · exact h.within p hp
    · exact List.mem_singleton.mp hp ▸ hq
  ordered := h.ordered.snoc hfollows
  noEof p hp := by
    rcases List.mem_append.mp hp with hp | hp
    · exact h.noEof p hp
    · exact List.mem_singleton.mp hp ▸ hkind

end Segment

/-- The lexer is between two characters. -/
def Boundary (lx : Lexer) : Prop := Utf8.IsBoundary lx.src lx.pos

/-- The lexer went from `L` to `lx` and emitted `ps`. -/
structure Emits (L lx : Lexer) (ps : List Piece) : Prop where
  src : lx.src = L.src
  fileId : lx.fileId = L.fileId
  interpDepth : lx.interpDepth = L.interpDepth
  tokens : ∃ toks, lx.tokens = L.tokens ++ toks ∧ List.Forall₂ (IsPiece L.fileId) toks ps
  start_le : L.pos ≤ lx.pos
  pos_le : lx.pos ≤ L.bytes.length
  lastTokenEnd_le : lx.lastTokenEnd ≤ lx.pos
  segment : Segment L.pos lx.pos ps

variable {L lx lx' : Lexer}

theorem Boundary.pos_le (h : Boundary lx) : lx.pos ≤ lx.bytes.length := Utf8.IsBoundary.le h

theorem atEnd_iff : lx.atEnd = true ↔ lx.bytes.length ≤ lx.pos := by
  rw [atEnd, decide_eq_true_eq]

theorem atEnd_eq_false : lx.atEnd = false ↔ lx.pos < lx.bytes.length := by
  rw [atEnd, decide_eq_false_iff_not, Nat.not_le]

theorem peek_eq (h : lx.pos < lx.bytes.length) : lx.peek = lx.bytes[lx.pos] := by
  rw [peek, List.getD_eq_getElem _ _ h]

theorem lt_of_peek_ne (h : lx.peek ≠ 0) : lx.pos < lx.bytes.length := by
  by_contra hend
  exact h (List.getD_eq_default _ _ (Nat.le_of_not_lt hend))

theorem advance_of_lt (h : lx.pos < lx.bytes.length) :
    lx.advance = { lx with pos := lx.pos + 1 } := by
  rw [advance, atEnd_eq_false.mpr h]
  rfl

theorem advance_of_atEnd (h : lx.atEnd = true) : lx.advance = lx := by
  rw [advance, h]
  rfl

namespace Emits

theorem bytes (h : Emits L lx ps) : lx.bytes = L.bytes := congrArg Utf8.encode h.src

theorem refl (hpos : L.pos ≤ L.bytes.length) (hlast : L.lastTokenEnd ≤ L.pos) : Emits L L [] :=
  ⟨rfl, rfl, rfl, ⟨[], (List.append_nil _).symm, .nil⟩, le_rfl, hpos, hlast, .nil _ _⟩

section

variable (h : Emits L lx ps)

include h

theorem trans (h' : Emits lx lx' qs) : Emits L lx' (ps ++ qs) where
  src := h'.src.trans h.src
  fileId := h'.fileId.trans h.fileId
  interpDepth := h'.interpDepth.trans h.interpDepth
  tokens := by
    obtain ⟨toks, htoks, hps⟩ := h.tokens
    obtain ⟨toks', htoks', hqs⟩ := h'.tokens
    rw [h.fileId] at hqs
    exact ⟨toks ++ toks', by rw [htoks', htoks, List.append_assoc], List.rel_append hps hqs⟩
  start_le := h.start_le.trans h'.start_le
  pos_le := h.bytes ▸ h'.pos_le
  lastTokenEnd_le := h'.lastTokenEnd_le
  segment := h.segment.append h'.segment h.start_le h'.start_le

/-- The lexer goes on over bytes. -/
theorem moveTo {n : ℕ} (hle : lx.pos ≤ n) (hn : n ≤ lx.bytes.length) :
    Emits L { lx with pos := n } ps where
  src := h.src
  fileId := h.fileId
  interpDepth := h.interpDepth
  tokens := h.tokens
  start_le := h.start_le.trans hle
  pos_le := h.bytes ▸ hn
  lastTokenEnd_le := h.lastTokenEnd_le.trans hle
  segment := h.segment.mono hle

theorem emitDiag (diag : Diagnostic) : Emits L (lx.emitDiag diag) ps :=
  ⟨h.src, h.fileId, h.interpDepth, h.tokens, h.start_le, h.pos_le, h.lastTokenEnd_le, h.segment⟩

theorem advance : Emits L lx.advance ps := by
  cases hend : lx.atEnd with
  | true => rwa [advance_of_atEnd hend]
  | false =>
    have hlt := atEnd_eq_false.mp hend
    rw [advance_of_lt hlt]
    exact h.moveTo (Nat.le_succ _) hlt

theorem advanceWhile (p : UInt8 → Bool) : Emits L (lx.advanceWhile p) ps := by
  refine h.moveTo (Nat.le_add_right _ _) ?_
  have hlen : ((lx.bytes.drop lx.pos).takeWhile p).length ≤ (lx.bytes.drop lx.pos).length :=
    (List.takeWhile_prefix p).length_le
  have hpos := h.pos_le
  rw [← h.bytes] at hpos
  rw [List.length_drop] at hlen
  omega

/-- A token is emitted for a piece that ends here. -/
theorem emit {kind : TokenKind} {start : ℕ} (hstart : L.pos ≤ start) (hle : start ≤ lx.pos)
    (hkind : kind ≠ .eof) (hfollows : Follows ps ⟨kind, start, lx.pos⟩) (text : String) :
    ∃ lx', lx.emit kind start lx.pos text = some lx' ∧ lx'.pos = lx.pos ∧
      lx'.tokens.getLast?.map Token.kind = some kind ∧
      Emits L lx' (ps ++ [⟨kind, start, lx.pos⟩]) := by
  have hpos := h.pos_le
  rw [← h.bytes] at hpos
  have hgap : max start lx.lastTokenEnd ≤ lx.bytes.length :=
    (Nat.max_le.mpr ⟨hle, h.lastTokenEnd_le⟩).trans hpos
  obtain ⟨toks, htoks, hps⟩ := h.tokens
  rw [Lexer.emit, if_pos hgap]
  refine ⟨_, rfl, rfl, ?_, ?_⟩
  · rw [List.getLast?_concat]
    rfl
  · refine ⟨h.src, h.fileId, h.interpDepth, ⟨toks ++ [lx.token kind start lx.pos text], ?_, ?_⟩,
      h.start_le, h.pos_le, le_rfl, ?_⟩
    · rw [htoks, List.append_assoc]
    · refine List.rel_append hps (.cons ⟨rfl, ?_⟩ .nil)
      rw [token, span, h.fileId]
    · exact h.segment.snoc ⟨hstart, hle, le_rfl⟩ hfollows hkind

end

end Emits

end Kryos.Lexer

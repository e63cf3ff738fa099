import Kryos.Lexer.Tokens

/-!
# Escaped strings

`escape_string` of the formatter writes the text of a string literal. The lexer shares no table with
it, and reads what it writes.

## Main results

* `stringStep_escaped` — one round of the scanner reads what one character is written as
* `tokenize_escapeString` — a quoted escaped text is one string token
-/

namespace Kryos

namespace Formatter

/-- What a character of a string is written as. Braces are doubled. -/
def escaped : Char → List Char
  | '\\' => ['\\', '\\']
  | '"' => ['\\', '"']
  | '\n' => ['\\', 'n']
  | '\r' => ['\\', 'r']
  | '\t' => ['\\', 't']
  | '\x00' => ['\\', '0']
  | '\x7b' => ['\x7b', '\x7b']
  | '\x7d' => ['\x7d', '\x7d']
  | ch => [ch]

def escapeString (s : List Char) : List Char := s.flatMap escaped

end Formatter

namespace Lexer

open Formatter VariantLoop

variable {lx : Lexer} {c d : Char} {rest : List Char}

/-! ## Characters ahead -/

/-- The rest of the source. -/
def Ahead (lx : Lexer) (rest : List Char) : Prop := lx.bytes.drop lx.pos = Utf8.encode rest

def IsAscii (c : Char) : Prop := String.utf8EncodeChar c = [c.toUInt8]

theorem Ahead.peekAt (h : Ahead lx rest) (i : ℕ) :
    lx.peekAt i = (Utf8.encode rest).getD i 0 := by
  rw [Lexer.peekAt, ← h, List.getD_eq_getElem?_getD, List.getD_eq_getElem?_getD,
    List.getElem?_drop]

theorem Ahead.atEnd_iff (h : Ahead lx rest) : lx.atEnd = true ↔ rest = [] := by
  have hnil : lx.bytes.drop lx.pos = [] ↔ lx.atEnd = true := by
    rw [List.drop_eq_nil_iff, Lexer.atEnd_iff]
  rw [← hnil, h]
  constructor
  · intro hempty
    cases rest with
    | nil => rfl
    | cons c rest =>
      obtain ⟨b, tail, hc, -⟩ := Utf8.encodeChar_shape c
      rw [Utf8.encode_cons, hc] at hempty
      cases hempty
  · rintro rfl
    rfl

theorem Ahead.lt_of_ne (h : Ahead lx rest) (hne : rest ≠ []) : lx.pos < lx.bytes.length := by
  rwa [← atEnd_eq_false, Bool.eq_false_iff, ne_eq, h.atEnd_iff]

theorem Ahead.lt (h : Ahead lx (c :: rest)) : lx.pos < lx.bytes.length :=
  h.lt_of_ne (List.cons_ne_nil c rest)

theorem Ahead.fits {u : List Char} (h : Ahead lx (u ++ rest)) (hlt : lx.pos < lx.bytes.length) :
    lx.pos + (Utf8.encode u).length ≤ lx.bytes.length := by
  have hlen := congrArg List.length h
  rw [List.length_drop, Utf8.encode_append, List.length_append] at hlen
  omega

/-- Behind some of the characters. -/
theorem Ahead.pass {u : List Char} (h : Ahead lx (u ++ rest)) :
    Ahead { lx with pos := lx.pos + (Utf8.encode u).length } rest := by
  show lx.bytes.drop (lx.pos + (Utf8.encode u).length) = Utf8.encode rest
  rw [← List.drop_drop, h, Utf8.encode_append, List.drop_left]

theorem Ahead.peek_ascii (h : Ahead lx (d :: rest)) (hd : IsAscii d) : lx.peek = d.toUInt8 := by
  have hpeek := h.peekAt 0
  rw [Utf8.encode_cons, hd] at hpeek
  exact hpeek

theorem Ahead.peekAt_one (h : Ahead lx (c :: d :: rest)) (hc : IsAscii c) (hd : IsAscii d) :
    lx.peekAt 1 = d.toUInt8 := by
  rw [h.peekAt, Utf8.encode_cons, Utf8.encode_cons, hc, hd]
  rfl

theorem Ahead.advance (h : Ahead lx (d :: rest)) (hd : IsAscii d) :
    Ahead lx.advance rest := by
  have hpass := Ahead.pass (u := [d]) h
  rw [Utf8.encode_cons, hd] at hpass
  rwa [advance_of_lt h.lt]

/-- The first byte of a character is not another ASCII character. -/
theorem Ahead.peek_ne (h : Ahead lx (c :: rest)) (hd : IsAscii d) (hne : c ≠ d) :
    lx.peek ≠ d.toUInt8 := by
  obtain ⟨b, tail, hc, -, -, hone, -⟩ := Utf8.encodeChar_shape c
  obtain ⟨b', tail', hd', -, -, hone', -⟩ := Utf8.encodeChar_shape d
  have hpeek : lx.peek = b := by
    have := h.peekAt 0
    rwa [Utf8.encode_cons, hc] at this
  have hlen : (String.utf8EncodeChar d).length = 1 := by rw [hd]; rfl
  rw [hd, List.cons.injEq] at hd'
  obtain ⟨rfl, -⟩ := hd'
  intro heq
  rw [hpeek] at heq
  subst heq
  have hsize := hone.mp (hone'.mpr (Utf8.length_encodeChar d ▸ hlen))
  have htail : tail = [] := by
    have := Utf8.length_encodeChar c
    rw [hc, hsize, List.length_cons] at this
    exact List.length_eq_zero_iff.mp (Nat.succ_injective this)
  have hread := Utf8.decodeChar_encodeChar c
  rw [hc, htail, ← hd, Utf8.decodeChar_encodeChar] at hread
  exact hne (Option.some.inj hread).symm

theorem Ahead.advanceUtf8 (h : Ahead lx (c :: rest)) :
    lx.advanceUtf8 = (c, { lx with pos := lx.pos + c.utf8Size }) := by
  obtain ⟨b, tail, hc, hwidth, -, hone, -⟩ := Utf8.encodeChar_shape c
  have hlen := Utf8.length_encodeChar c
  have hpeek : lx.peek = b := by
    have := h.peekAt 0
    rwa [Utf8.encode_cons, hc] at this
  rw [Lexer.advanceUtf8, if_neg (by rw [atEnd_eq_false.mpr h.lt]; decide), hpeek]
  by_cases hascii : b < 0x80
  · have hsize := hone.mp hascii
    have hbyte := String.utf8EncodeChar_eq_singleton hsize
    rw [hc, List.cons.injEq] at hbyte
    have hval : c.val.toNat < 256 := by
      have := UInt32.le_iff_toNat_le.mp (Char.utf8Size_eq_one_iff.mp hsize)
      exact Nat.lt_of_le_of_lt this (by decide)
    have hchar : Char.ofNat b.toNat = c := by
      rw [hbyte.1, UInt32.toNat_toUInt8, Nat.mod_eq_of_lt hval]
      exact Char.ofNat_toNat c
    rw [if_pos hascii, advance_of_lt h.lt, hsize, hchar]
  · rw [if_neg hascii, hwidth]
    have hfit := Ahead.fits (u := [c]) h h.lt
    rw [Utf8.encode_cons, Utf8.encode_nil, List.append_nil, hlen] at hfit
    rw [Ahead, Utf8.encode_cons] at h
    dsimp only
    rw [if_neg (Nat.not_lt.mpr hfit), h, ← hlen, List.take_left, Utf8.decodeChar_encodeChar]

/-! ## One round -/

section Round

variable {scan : Lexer → Option Lexer} {start : ℕ} {lit : Literal}

/-- The literal with one more character, read from `cs`. -/
def Literal.read (lit : Literal) (cs : List Char) (c : Char) : Literal :=
  lit.push { lit.lexer with pos := lit.lexer.pos + (Utf8.encode cs).length } c

theorem stringStep_plain (h : Ahead lit.lexer (c :: rest)) (hquote : c ≠ '"') (hopen : c ≠ '\x7b')
    (hclose : c ≠ '\x7d') (hback : c ≠ '\\') :
    stringStep scan start lit = some (.inl (lit.read [c] c)) := by
  have hend : lit.lexer.atEnd = false := atEnd_eq_false.mpr h.lt
  have hne : ∀ d, IsAscii d → c ≠ d → (lit.lexer.peek == d.toUInt8) = false := fun d hd hne =>
    beq_eq_false_iff_ne.mpr (h.peek_ne hd hne)
  simp only [stringStep, atPair, hend, hne '"' rfl hquote, hne '\x7b' rfl hopen,
    hne '\x7d' rfl hclose, hne '\\' rfl hback, h.advanceUtf8, Bool.or_false, Bool.false_and,
    Bool.false_eq_true, if_false, Literal.read, Utf8.encode_cons, Utf8.encode_nil, List.append_nil,
    Utf8.length_encodeChar]

theorem stringStep_escape {e : Char} (h : Ahead lit.lexer ('\\' :: e :: rest)) (he : IsAscii e)
    (hlt : e.toUInt8 < 0x80) (hc : escape e.toUInt8 = [c]) :
    stringStep scan start lit = some (.inl (lit.read ['\\', e] c)) := by
  have hend : lit.lexer.atEnd = false := atEnd_eq_false.mpr h.lt
  have hpeek := h.peek_ascii rfl
  have h' := h.advance rfl
  have hend' : lit.lexer.advance.atEnd = false := atEnd_eq_false.mpr h'.lt
  have hmove : lit.lexer.advance.advance = { lit.lexer with pos := lit.lexer.pos + 2 } := by
    rw [advance_of_lt h'.lt, advance_of_lt h.lt]
  have hquote : ('\\'.toUInt8 == '"'.toUInt8) = false := by decide
  have hopen : ('\\'.toUInt8 == '\x7b'.toUInt8) = false := by decide
  have hclose : ('\\'.toUInt8 == '\x7d'.toUInt8) = false := by decide
  have htext : lit.text ++ String.ofList [c] = lit.text.push c := by
    rw [String.push_eq_append]
    rfl
  have hlen : (Utf8.encode ['\\', e]).length = 2 := by
    rw [Utf8.encode_cons, Utf8.encode_cons, he]
    rfl
  simp only [stringStep, atPair, hend, hpeek, hquote, hopen, hclose, stringEscape, hend',
    h'.peek_ascii he, UInt8.not_le.mpr hlt, hc, htext, hmove, Literal.read, Literal.push, hlen,
    Bool.or_false, Bool.false_and, Bool.false_eq_true, if_false, beq_self_eq_true, if_true]

theorem stringStep_brace {b : Char} (h : Ahead lit.lexer (b :: b :: rest))
    (hb : b = '\x7b' ∨ b = '\x7d') :
    stringStep scan start lit = some (.inl (lit.read [b, b] b)) := by
  have hascii : IsAscii b := by rcases hb with rfl | rfl <;> rfl
  have hend : lit.lexer.atEnd = false := atEnd_eq_false.mpr h.lt
  have hmove : lit.lexer.advance.advance = { lit.lexer with pos := lit.lexer.pos + 2 } := by
    rw [advance_of_lt (h.advance hascii).lt, advance_of_lt h.lt]
  have hone : lit.lexer.peekAt 1 = b.toUInt8 := h.peekAt_one hascii hascii
  have hlen : (Utf8.encode [b, b]).length = 2 := by
    rw [Utf8.encode_cons, Utf8.encode_cons, hascii]
    rfl
  have hpeek := h.peek_ascii hascii
  rcases hb with rfl | rfl
  · have hquote : ('\x7b'.toUInt8 == '"'.toUInt8) = false := by decide
    simp only [stringStep, hend, hpeek, hquote, hone, hmove, Literal.read, Literal.push, hlen,
      Bool.or_false, Bool.false_eq_true, if_false, beq_self_eq_true, if_true]
  · have hquote : ('\x7d'.toUInt8 == '"'.toUInt8) = false := by decide
    have hopen : ('\x7d'.toUInt8 == '\x7b'.toUInt8) = false := by decide
    simp only [stringStep, atPair, hend, hpeek, hquote, hopen, hone, hmove, Literal.read,
      Literal.push, hlen, Bool.or_false, Bool.and_self, Bool.false_eq_true, if_false,
      beq_self_eq_true, if_true]

/-- **One round reads what one character is written as.** -/
theorem stringStep_escaped (h : Ahead lit.lexer (escaped c ++ rest)) :
    stringStep scan start lit = some (.inl (lit.read (escaped c) c)) := by
  fun_cases escaped c
  iterate 6 exact stringStep_escape h rfl (by decide) (by decide)
  · exact stringStep_brace h (.inl rfl)
  · exact stringStep_brace h (.inr rfl)
  · rename_i hback hquote _ _ _ _ hopen hclose
    have hsame : escaped c = [c] := by simp only [escaped, *]
    rw [hsame] at h
    exact stringStep_plain h hquote hopen hclose hback

end Round

/-! ## The whole literal -/

/-- Up to the closing quote. -/
theorem scan_escapeString (scan : Lexer → Option Lexer) (start : ℕ) {s : List Char}
    (h : Ahead lx (escapeString s ++ '"' :: rest)) :
    ∃ n, iterate (stringStep scan start) lx.rounds ⟨lx, "", false⟩ =
        some (.inl ⟨{ lx with pos := n }, String.ofList s, false⟩) ∧
      Ahead { lx with pos := n } ('"' :: rest) := by
  suffices hloop : ∃ r, iterate (stringStep scan start) lx.rounds ⟨lx, "", false⟩ = some r ∧
      ∃ n, r = .inl ⟨{ lx with pos := n }, String.ofList s, false⟩ ∧
        Ahead { lx with pos := n } ('"' :: rest) by
    obtain ⟨r, heq, n, rfl, hn⟩ := hloop
    exact ⟨n, heq, hn⟩
  refine iterate_spec (I := fun lit => ∃ n done todo, s = done ++ todo ∧
      lit = ⟨{ lx with pos := n }, String.ofList done, false⟩ ∧
      Ahead { lx with pos := n } (escapeString todo ++ '"' :: rest))
    (fun lit => lit.lexer.remaining) ?_ ⟨lx.pos, [], s, rfl, rfl, h⟩ (remaining_lt_rounds rfl)
  rintro lit ⟨n, done, todo, hs, rfl, hn⟩
  cases todo with
  | nil =>
    refine .inr ⟨.inl ⟨{ lx with pos := n }, String.ofList done, false⟩, ?_, n, ?_, hn⟩
    · have hquote := hn.peek_ascii rfl
      simp only [stringStep, hquote, beq_self_eq_true, Bool.or_true, if_true]
    · rw [hs, List.append_nil]
  | cons c todo =>
    have hc : Ahead { lx with pos := n } (escaped c ++ (escapeString todo ++ '"' :: rest)) := by
      rwa [← List.append_assoc]
    refine .inl ⟨_, stringStep_escaped hc, ⟨_, done ++ [c], todo, ?_, ?_, hc.pass⟩, ?_⟩
    · rw [hs, List.append_assoc, List.singleton_append]
    · rw [Literal.read, Literal.push, String.push_eq_append, String.ofList_append]
      rfl
    · have hlt := hc.lt_of_ne (by simp)
      have hpos : 0 < (Utf8.encode (escaped c)).length := by
        fun_cases escaped c <;> simp [*, Char.utf8Size_pos]
      exact remaining_moveTo (Nat.lt_add_of_pos_right hpos) (hc.fits hlt)

/-- The lexer behind the literal has emitted one token. -/
theorem scanToken_escapeString {s : List Char} {n : ℕ} (hdepth : lx.interpDepth = 0)
    (hlast : lx.lastTokenEnd ≤ lx.pos)
    (h : Ahead lx ('"' :: (escapeString s ++ '"' :: rest))) :
    ∃ stop, scanToken (n + 1) lx = some { lx with
        pos := stop
        tokens := lx.tokens ++ [lx.token .string lx.pos stop (String.ofList s)]
        lastTokenEnd := stop } ∧
      stop ≤ lx.bytes.length ∧ Ahead { lx with pos := stop } rest := by
  obtain ⟨m, hscan, hquote⟩ := scan_escapeString (scanToken n) lx.pos (h.advance rfl)
  have hop : (operators.find? fun op => op.1.toUInt8 == '"'.toUInt8) = none := by decide
  have hstart : lx.advance = { lx with pos := lx.pos + 1 } := advance_of_lt h.lt
  rw [hstart] at hscan hquote
  have hlt : m < lx.bytes.length := hquote.lt
  have hend : { lx with pos := m }.atEnd = false := atEnd_eq_false.mpr hlt
  have hstop : { lx with pos := m }.advance = { lx with pos := m + 1 } := advance_of_lt hlt
  refine ⟨m + 1, ?_, hlt, hstop ▸ hquote.advance rfl⟩
  have hpos : max lx.pos lx.lastTokenEnd ≤ lx.bytes.length := max_le h.lt.le (hlast.trans h.lt.le)
  rw [scanToken]
  simp only [h.peek_ascii rfl, hop]
  rw [if_neg (by decide), if_pos trivial, scanString, hstart,
    if_neg (show ¬ maxInterpDepth ≤ lx.interpDepth by rw [hdepth]; decide), hscan]
  simp only [Option.bind_eq_bind, Option.bind_some, hend, hstop, Bool.false_eq_true, if_false]
  exact if_pos hpos

theorem skip_quote (h : Ahead lx ('"' :: rest)) : lx.skipWhitespaceAndComments = some lx := by
  have hspace : lx.advanceWhile isSpace = lx := by
    have hnone : (lx.bytes.drop lx.pos).takeWhile isSpace = [] := by
      rw [h, Utf8.encode_cons]
      exact List.takeWhile_cons_of_neg (by decide)
    rw [advanceWhile, hnone]
    rfl
  have hopen : ∀ d, lx.atPair '/' d = false := by
    intro d
    rw [atPair, h.peek_ascii rfl]
    rfl
  have hstep : skipStep lx = some (.inr lx) := by
    rw [skipStep, hspace, atEnd_eq_false.mpr h.lt, hopen, hopen]
    rfl
  rw [skipWhitespaceAndComments, rounds, iterate, hstep]

/-- **A quoted escaped text is one string token**, and the lexer says nothing about it. -/
theorem tokenize_escapeString (s : List Char) (fileId : ℕ) :
    ∃ tok eof, tokenizeWithDiagnostics (new ('"' :: (escapeString s ++ ['"'])) fileId) =
        some ([tok, eof], []) ∧
      tok.kind = .string ∧ tok.text = String.ofList s ∧ eof.kind = .eof := by
  have h : Ahead (new ('"' :: (escapeString s ++ ['"'])) fileId) ('"' :: (escapeString s ++ ['"'])) :=
    rfl
  obtain ⟨stop, hscan, hstop, hrest⟩ := scanToken_escapeString (n := maxInterpDepth) rfl le_rfl h
  generalize hL : new ('"' :: (escapeString s ++ ['"'])) fileId = L at *
  obtain ⟨lx, hlx⟩ : ∃ lx : Lexer, lx = { L with
    pos := stop
    tokens := L.tokens ++ [L.token .string L.pos stop (String.ofList s)]
    lastTokenEnd := stop } := ⟨_, rfl⟩
  rw [← hlx] at hscan
  have hend : L.atEnd = false := atEnd_eq_false.mpr h.lt
  have hend' : lx.atEnd = true := by
    rw [hlx]
    exact hrest.atEnd_iff.mpr rfl
  have hfirst : tokenStep L = some (.inl lx) := by
    simp only [tokenStep, hend, skip_quote h, Option.bind_eq_bind, Option.bind_some,
      Bool.false_eq_true, if_false, hscan]
    rfl
  have hsecond : tokenStep lx = some (.inr lx) := by
    simp only [tokenStep, hend', if_true]
  obtain ⟨k, hk⟩ : ∃ k, L.rounds = k + 2 :=
    ⟨L.bytes.length - 1, by have := h.lt; rw [rounds]; omega⟩
  refine ⟨L.token .string L.pos stop (String.ofList s), lx.token .eof lx.pos lx.pos "", ?_, rfl, rfl,
    rfl⟩
  rw [tokenizeWithDiagnostics, hk, iterate, hfirst]
  have hemit : lx.emit .eof lx.pos lx.pos "" = some { lx with
      tokens := lx.tokens ++ [lx.token .eof lx.pos lx.pos ""]
      lastTokenEnd := lx.pos } := exists_emit (by rw [hlx]; exact hstop) (by rw [hlx]) .eof ""
  simp only [iterate, hsecond, Option.bind_eq_bind, Option.bind_some, hemit]
  rw [hlx, ← hL]
  rfl

end Lexer

end Kryos

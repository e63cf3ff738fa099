import Mathlib
import Kryos.Lib.Utf8
import Kryos.Lib.VariantLoop
import Kryos.Parser.State

/-!
# The lexer

The lexer works on the bytes of the source, and takes the texts of tokens from the source by byte
offsets. Taking a text at an offset inside a character ends the program, as does reading bytes that
are not there, and both are `none` here. So is too little fuel for a loop or for the recursion of
`scanToken`; `tokenizeWithDiagnostics` has enough of it for every source.

The offsets of a span have 32 bits.
-/

namespace Kryos

open Ast Kryos.Parser

structure Lexer where
  src : List Char
  fileId : ℕ
  pos : ℕ
  tokens : List Token
  diagnostics : List Diagnostic
  lastTokenEnd : ℕ
  interpDepth : ℕ

namespace Lexer

open VariantLoop

/-- The live depth of interpolations at which a literal is no longer scanned. -/
def maxInterpDepth : ℕ := 64

def new (src : List Char) (fileId : ℕ) : Lexer where
  src := src
  fileId := fileId
  pos := 0
  tokens := []
  diagnostics := []
  lastTokenEnd := 0
  interpDepth := 0

/-! ## Reading bytes -/

def bytes (lx : Lexer) : List UInt8 := Utf8.encode lx.src

def atEnd (lx : Lexer) : Bool := lx.bytes.length ≤ lx.pos

def peekAt (lx : Lexer) (offset : ℕ) : UInt8 := lx.bytes.getD (lx.pos + offset) 0

def peek (lx : Lexer) : UInt8 := lx.bytes.getD lx.pos 0

/-- The byte that is passed over is the one that `peek` shows. -/
def advance (lx : Lexer) : Lexer := if lx.atEnd then lx else { lx with pos := lx.pos + 1 }

/-- Pass over the bytes that satisfy `p`. -/
def advanceWhile (lx : Lexer) (p : UInt8 → Bool) : Lexer :=
  { lx with pos := lx.pos + ((lx.bytes.drop lx.pos).takeWhile p).length }

/-- The next byte is `c`; if so, the caller passes over it. -/
def matchChar (lx : Lexer) (c : Char) : Bool := !lx.atEnd && lx.peek == c.toUInt8

/-- One whole character, or a replacement for a byte that begins none. -/
def advanceUtf8 (lx : Lexer) : Char × Lexer :=
  if lx.atEnd then ('\uFFFD', lx)
  else if lx.peek < 0x80 then (Char.ofNat lx.peek.toNat, lx.advance)
  else
    match Utf8.width lx.peek with
    | none => ('\uFFFD', lx.advance)
    | some width =>
      if lx.bytes.length < lx.pos + width then ('\uFFFD', lx.advance)
      else
        match Utf8.decodeChar ((lx.bytes.drop lx.pos).take width) with
        | some ch => (ch, { lx with pos := lx.pos + width })
        | none => ('\uFFFD', lx.advance)

/-- Room for a loop that passes over a byte in every round. -/
def rounds (lx : Lexer) : ℕ := lx.bytes.length + 1

/-- Pass over characters while the next byte satisfies `p`. -/
def advanceUtf8While (lx : Lexer) (p : UInt8 → Bool) : Option Lexer :=
  iterate (fun lx => some (if !lx.atEnd && p lx.peek then .inl lx.advanceUtf8.2 else .inr lx))
    lx.rounds lx

def isCharBoundary (lx : Lexer) (n : ℕ) : Bool :=
  n == 0 || n == lx.bytes.length ||
    n < lx.bytes.length && !Utf8.isContinuation (lx.bytes.getD n 0)

/-- `src[start..stop]`. -/
def slice (lx : Lexer) (start stop : ℕ) : Option String :=
  if start ≤ stop ∧ lx.isCharBoundary start ∧ lx.isCharBoundary stop then
    some (String.ofList (Utf8.charsWithin start stop 0 lx.src))
  else none

/-! ## Tokens and diagnostics -/

/-- The span of the bytes from `start` to `stop`. -/
def span (lx : Lexer) (start stop : ℕ) : Span :=
  { fileId := lx.fileId, start := start % 2 ^ 32, stop := stop % 2 ^ 32 }

def emitDiag (lx : Lexer) (diag : Diagnostic) : Lexer :=
  { lx with diagnostics := lx.diagnostics ++ [diag] }

/-- The bytes between the last token and a new one. -/
def gap (lx : Lexer) (start : ℕ) : List UInt8 :=
  (lx.bytes.drop lx.lastTokenEnd).take (max start lx.lastTokenEnd - lx.lastTokenEnd)

def token (lx : Lexer) (kind : TokenKind) (start stop : ℕ) (text : String) : Token :=
  { kind, span := lx.span start stop, text,
    newlineBefore := (lx.gap start).contains '\n'.toUInt8 }

def emit (lx : Lexer) (kind : TokenKind) (start stop : ℕ) (text : String) : Option Lexer :=
  if max start lx.lastTokenEnd ≤ lx.bytes.length then
    some { lx with
      tokens := lx.tokens ++ [lx.token kind start stop text]
      lastTokenEnd := stop }
  else none

/-! ## Whitespace and comments -/

def isSpace (b : UInt8) : Bool :=
  b == ' '.toUInt8 || b == '\t'.toUInt8 || b == '\r'.toUInt8 || b == '\n'.toUInt8

/-- The characters that `trim_end` takes off. -/
def isWhitespace (c : Char) : Bool :=
  let n := c.toNat
  9 ≤ n && n ≤ 13 || n == 0x20 || n == 0x85 || n == 0xA0 || n == 0x1680 ||
    0x2000 ≤ n && n ≤ 0x200A || n == 0x2028 || n == 0x2029 || n == 0x202F || n == 0x205F ||
    n == 0x3000

def trimEnd (text : String) : String :=
  String.ofList (text.toList.reverse.dropWhile isWhitespace).reverse

def notNewline (b : UInt8) : Bool := b != '\n'.toUInt8

/-- Behind `///` and one space. -/
def docContent (lx : Lexer) : Lexer :=
  let lx := lx.advance.advance.advance
  if lx.matchChar ' ' then lx.advance else lx

def docComment (lx : Lexer) : Option Lexer := do
  let start := lx.pos
  let lx := lx.docContent
  let contentStart := lx.pos
  let lx := lx.advanceWhile notNewline
  let content ← lx.slice contentStart lx.pos
  lx.emit .docComment start lx.pos (trimEnd content)

def lineComment (lx : Lexer) : Option Lexer :=
  if lx.peekAt 2 == '/'.toUInt8 && lx.peekAt 3 != '/'.toUInt8 then lx.docComment
  else some (lx.advanceWhile notNewline)

/-- The opening or the closing of a block comment is next. -/
def atPair (lx : Lexer) (c d : Char) : Bool :=
  lx.peek == c.toUInt8 && lx.peekAt 1 == d.toUInt8

def blockStep : BitVec 32 × Lexer → Option ((BitVec 32 × Lexer) ⊕ (BitVec 32 × Lexer))
  | (depth, lx) =>
    if lx.atEnd || depth == 0 then some (.inr (depth, lx))
    else if lx.atPair '/' '*' then some (.inl (depth + 1, lx.advance.advance))
    else if lx.atPair '*' '/' then some (.inl (depth - 1, lx.advance.advance))
    else some (.inl (depth, lx.advance))

def unterminatedComment (lx : Lexer) (blockStart : ℕ) : Diagnostic where
  level := .error
  message := "unterminated block comment"
  code := some "E0009"
  labels := [(lx.span blockStart (blockStart + 2), "this block comment is never closed")]
  notes := ["block comments must end with `*/`"]

def blockComment (lx : Lexer) : Option Lexer := do
  let blockStart := lx.pos
  let (depth, lx) ← iterate blockStep lx.rounds (1, lx.advance.advance)
  if depth == 0 then return lx
  return lx.emitDiag (lx.unterminatedComment blockStart)

def skipStep (lx : Lexer) : Option (Lexer ⊕ Lexer) :=
  let lx := lx.advanceWhile isSpace
  if lx.atEnd then some (.inr lx)
  else if lx.atPair '/' '/' then lx.lineComment.map .inl
  else if lx.atPair '/' '*' then lx.blockComment.map .inl
  else some (.inr lx)

def skipWhitespaceAndComments (lx : Lexer) : Option Lexer := iterate skipStep lx.rounds lx

/-! ## Operators -/

/-- The tokens that one byte decides on, up to a second byte: the byte, the token it makes alone,
and the bytes that make a longer token of it, in the order in which they are tried. -/
def operators : List (Char × TokenKind × String × List (Char × TokenKind × String)) :=
  [('(', .lParen, "(", []), (')', .rParen, ")", []), ('\x7b', .lBrace, "\x7b", []),
    ('\x7d', .rBrace, "\x7d", []), ('[', .lBracket, "[", []), (']', .rBracket, "]", []),
    (';', .semicolon, ";", []), (',', .comma, ",", []), ('~', .tilde, "~", []),
    ('@', .atSign, "@", []), ('#', .hash, "#", []), ('?', .question, "?", []),
    ('^', .caret, "^", []),
    ('&', .amp, "&", [('&', .ampAmp, "&&")]),
    ('+', .plus, "+", [('=', .plusEq, "+=")]),
    ('-', .minus, "-", [('>', .arrow, "->"), ('=', .minusEq, "-=")]),
    ('*', .star, "*", [('*', .power, "**"), ('=', .starEq, "*=")]),
    ('/', .slash, "/", [('=', .slashEq, "/=")]),
    ('%', .percent, "%", [('=', .percentEq, "%=")]),
    ('=', .eq, "=", [('=', .eqEq, "=="), ('>', .fatArrow, "=>")]),
    ('!', .bang, "!", [('=', .bangEq, "!=")]),
    ('<', .lt, "<", [('=', .ltEq, "<="), ('<', .shl, "<<")]),
    ('>', .gt, ">", [('=', .gtEq, ">="), ('>', .shr, ">>")]),
    ('|', .pipe, "|", [('|', .pipePipe, "||")]),
    (':', .colon, ":", [(':', .colonColon, "::")])]

/-- The longer token if its second byte is next, else the token of one byte. -/
def scanOperator (lx : Lexer) (start : ℕ) (kind : TokenKind) (text : String)
    (longer : List (Char × TokenKind × String)) : Option Lexer :=
  match longer.find? fun op => lx.matchChar op.1 with
  | some (_, kind, text) => lx.advance.emit kind start lx.advance.pos text
  | none => lx.emit kind start lx.pos text

def scanDots (lx : Lexer) (start : ℕ) : Option Lexer :=
  if lx.matchChar '.' then lx.advance.scanOperator start .dotDot ".." [('=', .dotDotEq, "..=")]
  else lx.emit .dot start lx.pos "."

/-! ## Strings -/

/-- A string literal of which a part has been read. -/
structure Literal where
  lexer : Lexer
  text : String
  hasInterpolation : Bool

def Literal.push (lit : Literal) (lx : Lexer) (c : Char) : Literal :=
  { lit with lexer := lx, text := lit.text.push c }

/-- How a message shows a text. -/
def debugChar (c : Char) : String :=
  if c = '"' then "\\\""
  else if c = '\\' then "\\\\"
  else if c = '\n' then "\\n"
  else if c = '\r' then "\\r"
  else if c = '\t' then "\\t"
  else if c.toNat = 0 then "\\0"
  else if c.toNat < 0x20 ∨ c.toNat = 0x7F then
    "\\u\x7b" ++ String.ofList (Nat.toDigits 16 c.toNat) ++ "\x7d"
  else String.singleton c

def debug (text : String) : String := "\"" ++ String.join (text.toList.map debugChar) ++ "\""

def invalidInInterpolation (bad : Token) : Diagnostic where
  level := .error
  message := "invalid character " ++ debug bad.text ++ " in string interpolation"
  code := some "E0009"
  labels := [(bad.span, "not a valid start of an expression here")]
  notes := ["a bare `\x7b` starts string interpolation -- for a literal brace (e.g. JSON) write " ++
    "`\x7b\x7b`, or escape it `\\\x7b`"]

/-- One token of an interpolation. The loop ends at the closing brace, at the end of the source, and
after an `Error` token. -/
def interpStep (scan : Lexer → Option Lexer) :
    BitVec 32 × Lexer → Option ((BitVec 32 × Lexer) ⊕ (Bool × Lexer))
  | (braceDepth, lx) =>
    if lx.atEnd then some (.inr (false, lx))
    else do
      let lx ← lx.skipWhitespaceAndComments
      if lx.atEnd then return .inr (false, lx)
      if lx.peek == '\x7d'.toUInt8 && braceDepth == 0 then return .inr (false, lx)
      let braceDepth :=
        if lx.peek == '\x7b'.toUInt8 then braceDepth + 1
        else if lx.peek == '\x7d'.toUInt8 then braceDepth - 1
        else braceDepth
      let lx ← scan lx
      match lx.tokens.getLast? with
      | some bad =>
        if bad.kind = .error then return .inr (true, lx.emitDiag (invalidInInterpolation bad))
        return .inl (braceDepth, lx)
      | none => return .inl (braceDepth, lx)

def dollarWarning (lx : Lexer) : Diagnostic where
  level := .warning
  message := "`$` before an interpolation is printed literally"
  code := none
  labels := [(lx.span (lx.pos - 1) (lx.pos + 1), "this `$` is not part of the interpolation")]
  notes := ["Kryos interpolation is `\x7bexpr\x7d`, not `$\x7bexpr\x7d` -- drop the `$`"]

/-- The part in front of an interpolation is emitted, unless it is empty and not the first. -/
def partBefore (start : ℕ) (lit : Literal) : Option (Lexer × String) :=
  if !lit.text.isEmpty || !lit.hasInterpolation then
    (lit.lexer.emit .stringPart start lit.lexer.pos lit.text).map fun lx => (lx, "")
  else some (lit.lexer, lit.text)

def deeper (lx : Lexer) : Lexer := { lx with interpDepth := lx.interpDepth + 1 }

def shallower (lx : Lexer) : Lexer := { lx with interpDepth := lx.interpDepth - 1 }

/-- Behind the tokens of an interpolation. After an error the literal is given up. -/
def endInterpolation (start : ℕ) (text : String) (lexError : Bool) (lx : Lexer) :
    Option (Literal ⊕ Lexer) :=
  if lexError then (lx.emit .stringPart start lx.pos text).map .inr
  else if lx.atEnd then some (.inl ⟨lx, text, true⟩)
  else (lx.advance.emit .interpEnd lx.pos lx.advance.pos "\x7d").map fun lx =>
    .inl ⟨lx, text, true⟩

/-- A brace that begins an interpolation. The answer is the literal to go on with, or the lexer after
the literal was given up. -/
def interpolation (scan : Lexer → Option Lexer) (start : ℕ) (lit : Literal) :
    Option (Literal ⊕ Lexer) := do
  let (lx, text) ← partBefore start lit
  let lx ← lx.advance.emit .interpStart lx.pos lx.advance.pos "\x7b"
  let (lexError, lx) ← iterate (interpStep scan) lx.rounds (0, lx.deeper)
  endInterpolation start text lexError lx.shallower

/-- What a backslash and an ASCII byte stand for. -/
def escape (esc : UInt8) : List Char :=
  if esc = 'n'.toUInt8 then ['\n']
  else if esc = 't'.toUInt8 then ['\t']
  else if esc = 'r'.toUInt8 then ['\r']
  else if esc = '\\'.toUInt8 then ['\\']
  else if esc = '"'.toUInt8 then ['"']
  else if esc = '0'.toUInt8 then ['\x00']
  else if esc = '\x7b'.toUInt8 then ['\x7b']
  else if esc = '\x7d'.toUInt8 then ['\x7d']
  else ['\\', Char.ofNat esc.toNat]

/-- Behind a backslash. -/
def stringEscape (lit : Literal) (lx : Lexer) : Literal :=
  if lx.atEnd then { lit with lexer := lx }
  else if 0x80 ≤ lx.peek then
    let escStart := lx.pos - 1
    let (c, lx) := lx.advanceUtf8
    let lx := lx.emitDiag {
      level := .warning
      message := "unknown escape sequence `\\" ++ String.singleton c ++ "`"
      code := none
      labels := [(lx.span escStart lx.pos, "this backslash is kept literally")]
      notes := ["write `\\\\` for a literal backslash"] }
    { lit with lexer := lx, text := (lit.text.push '\\').push c }
  else
    { lit with lexer := lx.advance, text := lit.text ++ String.ofList (escape lx.peek) }

def warnDollar (lit : Literal) : Literal :=
  if lit.text.toList.getLast? = some '$' then
    { lit with lexer := lit.lexer.emitDiag (dollarWarning lit.lexer) }
  else lit

/-- At a brace that is not doubled. In front of a quote or a closing brace it is a plain character. -/
def stringBrace (scan : Lexer → Option Lexer) (start : ℕ) (lit : Literal) :
    Option (Literal ⊕ (Literal ⊕ Lexer)) :=
  if lit.lexer.peekAt 1 == '"'.toUInt8 || lit.lexer.peekAt 1 == '\x7d'.toUInt8 then
    some (.inl (lit.push lit.lexer.advance '\x7b'))
  else
    (interpolation scan start lit).map fun
      | .inl lit => .inl lit
      | .inr lx => .inr (.inr lx)

/-- One piece of a string literal. The loop ends at the closing quote and at the end of the source,
and when the literal was given up. -/
def stringStep (scan : Lexer → Option Lexer) (start : ℕ) (lit : Literal) :
    Option (Literal ⊕ (Literal ⊕ Lexer)) :=
  let lx := lit.lexer
  if lx.atEnd || lx.peek == '"'.toUInt8 then some (.inr (.inl lit))
  else if lx.peek == '\x7b'.toUInt8 then
    if lx.peekAt 1 == '\x7b'.toUInt8 then some (.inl (lit.push lx.advance.advance '\x7b'))
    else stringBrace scan start (warnDollar lit)
  else if lx.atPair '\x7d' '\x7d' then some (.inl (lit.push lx.advance.advance '\x7d'))
  else if lx.peek == '\\'.toUInt8 then some (.inl (stringEscape lit lx.advance))
  else some (.inl (lit.push lx.advanceUtf8.2 lx.advanceUtf8.1))

def unterminatedString (lx : Lexer) (start : ℕ) (hasInterpolation : Bool) : Diagnostic where
  level := .error
  message := "unterminated string literal"
  code := some "E0009"
  labels := [(lx.span start (start + 1), "this string is never closed")]
  notes := "add a matching `\"` before end of file" ::
    if hasInterpolation then
      ["a bare `\x7b` starts string interpolation -- for a literal brace (e.g. JSON) write " ++
        "`\x7b\x7b`"]
    else []

def tooDeep (lx : Lexer) (start : ℕ) : Diagnostic where
  level := .error
  message := "string interpolation nests deeper than the maximum of 64; " ++
    "bind the inner values to locals first"
  code := some "E0010"
  labels := [(lx.span start (start + 1), "interpolation nesting limit reached here")]
  notes := []

/-- The literal that was opened before the current position. -/
def scanString (scan : Lexer → Option Lexer) (lx : Lexer) (start : ℕ) : Option Lexer :=
  if maxInterpDepth ≤ lx.interpDepth then
    let lx := lx.emitDiag (tooDeep lx start)
    let stop := lx.bytes.length
    { lx with pos := stop }.emit .error start stop ""
  else do
    match ← iterate (stringStep scan start) lx.rounds ⟨lx, "", false⟩ with
    | .inr lx => return lx
    | .inl lit =>
      let lx :=
        if lit.lexer.atEnd then
          lit.lexer.emitDiag (unterminatedString lit.lexer start lit.hasInterpolation)
        else lit.lexer.advance
      lx.emit (if lit.hasInterpolation then .stringPart else .string) start lx.pos lit.text

/-! ## Characters, numbers and words -/

def charDiagnostic (message : String) (span : Span) (label : String) (note : String) :
    Diagnostic where
  level := .error
  message := message
  code := none
  labels := [(span, label)]
  notes := [note]

def emptyChar (span : Span) : Diagnostic :=
  charDiagnostic "empty character literal" span
    "a character literal must contain exactly one code point"
    "write the character between the quotes: `'a'`; for a quote itself use `'\\''`"

def unterminatedChar (lx : Lexer) (start : ℕ) : Diagnostic :=
  charDiagnostic "unterminated character literal" (lx.span start (start + 1))
    "this character literal is never closed"
    "character literals are a single quoted code point: `'a'`"

def longChar (span : Span) : Diagnostic :=
  charDiagnostic "character literal contains more than one character" span
    "a character literal holds exactly one code point"
    "use a string literal (\"...\") for multi-character text"

def charEscape (esc : UInt8) : Char :=
  if esc = 'n'.toUInt8 then '\n'
  else if esc = 't'.toUInt8 then '\t'
  else if esc = 'r'.toUInt8 then '\r'
  else if esc = '\\'.toUInt8 then '\\'
  else if esc = '\''.toUInt8 then '\''
  else if esc = '0'.toUInt8 then '\x00'
  else Char.ofNat esc.toNat

/-- The content of a character literal. -/
def charContent (lx : Lexer) : Char × Lexer :=
  if lx.peek == '\\'.toUInt8 then (charEscape lx.advance.peek, lx.advance.advance)
  else lx.advanceUtf8

/-- Behind the content: the closing quote, or what stands up to it on this line. -/
def closeChar (lx : Lexer) (start : ℕ) : Option Lexer :=
  if lx.matchChar '\'' then some lx.advance
  else if lx.atEnd then some (lx.emitDiag (lx.unterminatedChar start))
  else do
    let lx ← lx.advanceUtf8While fun b => b != '\''.toUInt8 && b != '\n'.toUInt8
    if lx.matchChar '\'' then
      return lx.advance.emitDiag (longChar (lx.advance.span start lx.advance.pos))
    return lx.emitDiag (lx.unterminatedChar start)

def scanChar (lx : Lexer) (start : ℕ) : Option Lexer :=
  if lx.matchChar '\'' then
    let lx := lx.advance
    (lx.emitDiag (emptyChar (lx.span start lx.pos))).emit .char start lx.pos "\x00"
  else do
    let (ch, lx) := lx.charContent
    let lx ← lx.closeChar start
    lx.emit .char start lx.pos (String.singleton ch)

def isDigit (b : UInt8) : Bool := '0'.toUInt8 ≤ b && b ≤ '9'.toUInt8

def isDigitOrMark (b : UInt8) : Bool := isDigit b || b == '_'.toUInt8

def isHexDigit (b : UInt8) : Bool :=
  isDigit b || 'a'.toUInt8 ≤ b && b ≤ 'f'.toUInt8 || 'A'.toUInt8 ≤ b && b ≤ 'F'.toUInt8

/-- The letters behind a leading zero, and the digits that they announce. -/
def radixes : List (Char × Char × (UInt8 → Bool)) :=
  [('x', 'X', fun b => isHexDigit b || b == '_'.toUInt8),
    ('b', 'B', fun b => b == '0'.toUInt8 || b == '1'.toUInt8 || b == '_'.toUInt8),
    ('o', 'O', fun b => '0'.toUInt8 ≤ b && b ≤ '7'.toUInt8 || b == '_'.toUInt8)]

/-- A token whose text is what was passed over since `start`. -/
def emitText (lx : Lexer) (kind : TokenKind) (start : ℕ) : Option Lexer := do
  let text ← lx.slice start lx.pos
  lx.emit kind start lx.pos text

def missingExponent (span : Span) : Diagnostic where
  level := .error
  message := "missing digits in float exponent"
  code := none
  labels := [(span, "exponent has no digits")]
  notes := ["write the exponent value, e.g. `1e5` or `1e-3`"]

/-- A point with digits behind it. -/
def fraction (lx : Lexer) : Bool × Lexer :=
  if lx.matchChar '.' && isDigit (lx.peekAt 1) then
    (true, lx.advance.advanceWhile isDigitOrMark)
  else (false, lx)

def sign (lx : Lexer) : Lexer :=
  if lx.matchChar '+' || lx.matchChar '-' then lx.advance else lx

def exponentDigits (lx : Lexer) (start : ℕ) : Lexer :=
  let stop := lx.advanceWhile isDigit
  if stop.pos = lx.pos then stop.emitDiag (missingExponent (stop.span start stop.pos)) else stop

def exponent (lx : Lexer) (start : ℕ) : Bool × Lexer :=
  if lx.matchChar 'e' || lx.matchChar 'E' then (true, lx.advance.sign.exponentDigits start)
  else (false, lx)

def scanNumber (lx : Lexer) (start : ℕ) : Option Lexer :=
  let radix :=
    if lx.bytes.getD start 0 == '0'.toUInt8 then
      radixes.find? fun r => lx.matchChar r.1 || lx.matchChar r.2.1
    else none
  match radix with
  | some (_, _, isRadixDigit) => (lx.advance.advanceWhile isRadixDigit).emitText .integer start
  | none =>
    let lx := lx.advanceWhile isDigitOrMark
    let (hasFraction, lx) := lx.fraction
    let (hasExponent, lx) := lx.exponent start
    lx.emitText (if hasFraction || hasExponent then .float else .integer) start

def isWordStart (b : UInt8) : Bool :=
  'a'.toUInt8 ≤ b && b ≤ 'z'.toUInt8 || 'A'.toUInt8 ≤ b && b ≤ 'Z'.toUInt8 || b == '_'.toUInt8

/-- One character of a word, and whether the word has had one that is not ASCII. -/
def wordStep : Bool × Lexer → Option ((Bool × Lexer) ⊕ (Bool × Lexer))
  | (hasNonAscii, lx) =>
    if lx.atEnd then some (.inr (hasNonAscii, lx))
    else if isWordStart lx.peek || isDigit lx.peek then some (.inl (hasNonAscii, lx.advance))
    else if 0x80 ≤ lx.peek then some (.inl (true, lx.advanceUtf8.2))
    else some (.inr (hasNonAscii, lx))

def keywords : List (String × TokenKind) :=
  [("let", .kwLet), ("mut", .kwMut), ("fn", .kwFn), ("return", .kwReturn), ("if", .kwIf),
    ("else", .kwElse), ("elif", .kwElif), ("for", .kwFor), ("while", .kwWhile), ("loop", .kwLoop),
    ("in", .kwIn), ("break", .kwBreak), ("continue", .kwContinue), ("struct", .kwStruct),
    ("enum", .kwEnum), ("impl", .kwImpl), ("trait", .kwTrait), ("dyn", .kwDyn), ("pub", .kwPub),
    ("use", .kwUse), ("extern", .kwExtern), ("as", .kwAs), ("mod", .kwMod), ("type", .kwType),
    ("true", .kwTrue), ("false", .kwFalse), ("none", .kwNone), ("actor", .kwActor),
    ("spawn", .kwSpawn), ("select", .kwSelect), ("send", .kwSend), ("recv", .kwRecv),
    ("chan", .kwChan), ("parallel", .kwParallel), ("quantum", .kwQuantum),
    ("comptime", .kwComptime), ("unsafe", .kwUnsafe), ("match", .kwMatch), ("and", .kwAnd),
    ("or", .kwOr), ("not", .kwNot), ("try", .kwTry), ("catch", .kwCatch), ("throw", .kwThrow),
    ("async", .kwAsync), ("await", .kwAwait), ("shared", .kwShared), ("weak", .kwWeak),
    ("move", .kwMove)]

def builtinTypes : List String :=
  ["i8", "i16", "i32", "i64", "i128", "u8", "u16", "u32", "u64", "u128", "f32", "f64", "bool",
    "str", "char", "usize", "isize", "Tensor", "Vec", "Map", "Set", "Option", "Result", "Secret",
    "Qubit", "Qureg"]

def wordKind (word : String) : TokenKind :=
  match keywords.lookup word with
  | some kind => kind
  | none => if word ∈ builtinTypes then .typeIdent else .ident

def nonAsciiWord (span : Span) : Diagnostic where
  level := .error
  message := "identifier contains non-ASCII characters"
  code := none
  labels := [(span, "identifiers must be ASCII")]
  notes := ["Kryos identifiers use ASCII letters, digits, and `_`; put non-ASCII text inside a " ++
    "string or char literal"]

def scanIdentifier (lx : Lexer) (start : ℕ) : Option Lexer := do
  let (hasNonAscii, lx) ← iterate wordStep lx.rounds (false, lx)
  let word ← lx.slice start lx.pos
  if hasNonAscii then
    (lx.emitDiag (nonAsciiWord (lx.span start lx.pos))).emit .error start lx.pos word
  else lx.emit (wordKind word) start lx.pos word

def nonAsciiToken (span : Span) : Diagnostic where
  level := .error
  message := "non-ASCII character in source"
  code := none
  labels := [(span, "not valid outside a string or char literal")]
  notes := ["Kryos identifiers and source tokens must be ASCII; put non-ASCII text inside a " ++
    "string or char literal"]

/-- The rest of a character of which the first byte was passed over, and the characters behind it
that are not ASCII either. -/
def scanNonAscii (lx : Lexer) (start : ℕ) : Option Lexer := do
  let lx ← (lx.advanceWhile fun b => b &&& 0xC0 == 0x80).advanceUtf8While fun b => 0x80 ≤ b
  let text ← lx.slice start lx.pos
  (lx.emitDiag (nonAsciiToken (lx.span start lx.pos))).emit .error start lx.pos text

/-! ## The token loop -/

/-- One token. A token that holds interpolations holds other tokens, which is one level of
recursion. -/
def scanToken : ℕ → Lexer → Option Lexer
  | 0, _ => none
  | n + 1, lx =>
    let start := lx.pos
    let ch := lx.peek
    let lx := lx.advance
    match operators.find? fun op => op.1.toUInt8 == ch with
    | some (_, kind, text, longer) => lx.scanOperator start kind text longer
    | none =>
      if ch = '.'.toUInt8 then lx.scanDots start
      else if ch = '"'.toUInt8 then scanString (scanToken n) lx start
      else if ch = '\''.toUInt8 then lx.scanChar start
      else if isDigit ch then lx.scanNumber start
      else if isWordStart ch then lx.scanIdentifier start
      else if 0x80 ≤ ch then lx.scanNonAscii start
      else lx.emit .error start lx.pos (String.singleton (Char.ofNat ch.toNat))

def tokenStep (lx : Lexer) : Option (Lexer ⊕ Lexer) :=
  if lx.atEnd then some (.inr lx)
  else do
    let lx ← lx.skipWhitespaceAndComments
    if lx.atEnd then return .inr lx
    return .inl (← scanToken (maxInterpDepth + 1) lx)

def tokenizeWithDiagnostics (lx : Lexer) : Option (List Token × List Diagnostic) := do
  let lx ← iterate tokenStep lx.rounds lx
  let lx ← lx.emit .eof lx.pos lx.pos ""
  return (lx.tokens, lx.diagnostics)

def tokenize (lx : Lexer) : Option (List Token) := do return (← lx.tokenizeWithDiagnostics).1

end Lexer

end Kryos

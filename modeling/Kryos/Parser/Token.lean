import Kryos.Ast

/-!
# Tokens

The kinds of token the lexer produces, and the tokens themselves.
-/

namespace Kryos.Parser

open Ast

inductive TokenKind where
  | integer | float | string | stringPart | interpStart | interpEnd | char
  | kwTrue | kwFalse | kwNone
  | ident | typeIdent
  | kwLet | kwMut | kwFn | kwReturn | kwIf | kwElse | kwElif | kwFor | kwWhile | kwLoop | kwIn
  | kwBreak | kwContinue | kwStruct | kwEnum | kwImpl | kwTrait | kwDyn | kwPub | kwUse | kwExtern
  | kwAs | kwMod | kwType | kwActor | kwSpawn | kwSelect | kwSend | kwRecv | kwChan | kwParallel
  | kwQuantum | kwComptime | kwUnsafe | kwMatch | kwAnd | kwOr | kwNot | kwTry | kwCatch | kwThrow
  | kwAsync | kwAwait | kwShared | kwWeak | kwMove
  | plus | minus | star | slash | percent | power | atSign | eqEq | bangEq | bang | lt | gt | ltEq
  | gtEq | eq | plusEq | minusEq | starEq | slashEq | percentEq | amp | ampAmp | pipe | pipePipe
  | caret | tilde | shl | shr | hash | question
  | arrow | fatArrow | colonColon | dotDot | dotDotEq | dot | colon | semicolon | comma
  | lParen | rParen | lBrace | rBrace | lBracket | rBracket
  | docComment | newline | eof | error
deriving DecidableEq, Repr

/-- A token with its span and its source text. `newlineBefore` says that a line ends between the
previous token and this one. -/
structure Token where
  kind : TokenKind
  span : Span
  text : String
  newlineBefore : Bool
deriving DecidableEq, Repr

end Kryos.Parser

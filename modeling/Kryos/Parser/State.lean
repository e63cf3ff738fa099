import Mathlib
import Kryos.Decl
import Kryos.Parser.Token

/-!
# The parser's state

The state of the parser, the token navigation every parse function goes through, and error
reporting. An index outside the token vector and an arm the source calls unreachable are faults of
the run, as they are panics of the program.
-/

namespace Kryos.Parser

open Ast

inductive Level where
  | error | warning
deriving DecidableEq, Repr

structure Diagnostic where
  level : Level
  message : String
  code : Option String
  labels : List (Span × String)
  notes : List String
deriving DecidableEq, Repr

/-- What ends a run without a result: too little fuel, or one of the two panics. -/
inductive Fault where
  | outOfFuel | outOfBounds | unreachable
deriving DecidableEq, Repr

end Kryos.Parser

namespace Kryos

open Ast Kryos.Parser

/-- The parser. `nestDepth` is the depth of the syntax tree path being built, `recDepth` the depth
of the grammar recursion alone. -/
structure Parser where
  tokens : List Token
  pos : ℕ
  diagnostics : List Diagnostic
  noStructLiteral : Bool
  freshCounter : ℕ
  nestDepth : ℕ
  recDepth : ℕ
  nestingPoisoned : Bool

end Kryos

namespace Kryos.Ast

def Span.merge (a b : Span) : Span :=
  { fileId := a.fileId, start := min a.start b.start, stop := max a.stop b.stop }

end Kryos.Ast

namespace Kryos.Parser

open Ast

def new (tokens : List Token) : Parser :=
  { tokens, pos := 0, diagnostics := [], noStructLiteral := false, freshCounter := 0,
    nestDepth := 0, recDepth := 0, nestingPoisoned := false }

/-- A parse function. -/
abbrev P (α : Type) := StateT Parser (Except Fault) α

/-! ## Reading tokens -/

/-- `self.tokens[i]`. -/
def index (i : ℕ) : P Token := fun s =>
  match s.tokens[i]? with
  | some tok => .ok (tok, s)
  | none => .error .outOfBounds

def peek : P Token := fun s => index (min s.pos (s.tokens.length - 1)) s

def peekKind : P TokenKind := do return (← peek).kind

def atEnd : P Bool := do return (← peekKind) = .eof

def step : P Unit := modify fun s => { s with pos := s.pos + 1 }

def advance : P Token := do
  let tok ← peek
  unless ← atEnd do
    step
  return tok

/-! ## Errors -/

def push (d : Diagnostic) : P Unit := modify fun s => { s with diagnostics := s.diagnostics ++ [d] }

def errorWithCode (message : String) (span : Span) (code : String) : P Unit := do
  if (← get).nestingPoisoned then return
  push { level := .error, message, code := some code, labels := [(span, "here")], notes := [] }

def error (message : String) (span : Span) : P Unit := errorWithCode message span "E0009"

/-! ## Runs -/

theorem peek_eq {s : Parser} {tok : Token} (h : s.tokens[s.pos]? = some tok) :
    peek s = .ok (tok, s) := by
  have hlt : s.pos < s.tokens.length := (List.getElem?_eq_some_iff.mp h).1
  rw [peek, Nat.min_eq_left (by omega), index, h]

theorem advance_eq {s : Parser} {tok : Token} (h : s.tokens[s.pos]? = some tok)
    (hkind : tok.kind ≠ .eof) : advance s = .ok (tok, { s with pos := s.pos + 1 }) := by
  have hpeek := peek_eq h
  simp only [advance, atEnd, peekKind, step, modify, modifyGet, MonadStateOf.modifyGet,
    bind, StateT.bind, pure, StateT.pure, Except.bind, Except.pure, hpeek]
  rw [if_neg (by simpa using hkind)]
  rfl

end Kryos.Parser

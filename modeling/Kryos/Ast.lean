/-!
# Syntax trees

The syntax tree of the compiler front end: type expressions, patterns, expressions, statements and
declarations, under the names of the source. Every node has the span of its text. Spans identify
nodes, which is how the type checker keys what it finds out about them.
-/

namespace Kryos.Ast

structure Span where
  fileId : Nat
  start : Nat
  stop : Nat
deriving DecidableEq, Repr

inductive BinOp where
  | add | sub | mul | div | mod | pow
  | eq | neq | lt | gt | ltEq | gtEq
  | and | or
  | bitAnd | bitOr | bitXor | shl | shr
  | pipe | matMul
deriving DecidableEq, Repr

inductive UnOp where
  | neg | not | bitNot
deriving DecidableEq, Repr

inductive AssignOp where
  | assign | addAssign | subAssign | mulAssign | divAssign | modAssign
deriving DecidableEq, Repr

inductive TypeExpr where
  | simple (name : String) (span : Span)
  | generic (name : String) (args : List TypeExpr) (span : Span)
  | array (element : TypeExpr) (size : Option Nat) (span : Span)
  | tuple (elements : List TypeExpr) (span : Span)
  | function (params : List TypeExpr) (ret : TypeExpr) (span : Span)
  | optional (inner : TypeExpr) (span : Span)
  | reference (inner : TypeExpr) (mutable : Bool) (span : Span)
  | shared (inner : TypeExpr) (span : Span)
  | weak (inner : TypeExpr) (span : Span)
  | pointer (inner : TypeExpr) (mutable : Bool) (span : Span)
  | dynTrait (traitName : String) (span : Span)
  | inferred (span : Span)

mutual

inductive Pattern where
  | wildcard (span : Span)
  | ident (name : String) (mutable : Bool) (span : Span)
  | literal (expr : Expr) (span : Span)
  | tuple (elements : List Pattern) (span : Span)
  | struct (name : String) (fields : List (String × Pattern)) (span : Span)
  | enum (name variant : String) (fields : List Pattern) (span : Span)
  | or (patterns : List Pattern) (span : Span)

inductive StringPart where
  | literal (text : String)
  | expr (expr : Expr)

inductive Param where
  | mk (name : String) (ty : Option TypeExpr) (default : Option Expr) (span : Span)

inductive MatchArm where
  | mk (pattern : Pattern) (guard : Option Expr) (body : Expr) (span : Span)

inductive Expr where
  | intLiteral (value : Int) (span : Span)
  | floatLiteral (bits : UInt64) (span : Span)
  | stringLiteral (value : String) (span : Span)
  | interpolatedString (parts : List StringPart) (span : Span)
  | charLiteral (value : Char) (span : Span)
  | boolLiteral (value : Bool) (span : Span)
  | noneLiteral (span : Span)
  | identifier (name : String) (span : Span)
  | fieldAccess (object : Expr) (field : String) (span : Span)
  | indexAccess (object index : Expr) (span : Span)
  | binaryOp (op : BinOp) (left right : Expr) (span : Span)
  | unaryOp (op : UnOp) (operand : Expr) (span : Span)
  | fnCall (callee : Expr) (args : List Expr) (span : Span)
  | methodCall (object : Expr) (method : String) (args : List Expr) (span : Span)
  | staticMethodCall (typeName method : String) (args : List Expr) (span : Span)
  | arrayLiteral (elements : List Expr) (span : Span)
  | tupleLiteral (elements : List Expr) (span : Span)
  | mapLiteral (entries : List (Expr × Expr)) (span : Span)
  | structLiteral (name : String) (fields : List (String × Expr)) (span : Span)
  | lambda (params : List Param) (retTy : Option TypeExpr) (body : Expr) (span : Span)
  | ifExpr (condition : Expr) (thenBranch : Block) (elseBranch : Option Block) (span : Span)
  | matchExpr (subject : Expr) (arms : List MatchArm) (span : Span)
  | rangeExpr (start stop : Option Expr) (inclusive : Bool) (span : Span)
  | pipeExpr (left right : Expr) (span : Span)
  | borrow (inner : Expr) (mutable : Bool) (span : Span)
  | deref (inner : Expr) (span : Span)
  | sharedExpr (inner : Expr) (span : Span)
  | moveExpr (inner : Expr) (span : Span)
  | weakExpr (inner : Expr) (span : Span)
  | comptimeBlock (body : Block) (span : Span)
  | quantumBlock (body : Block) (span : Span)
  | unsafeBlock (body : Block) (span : Span)
  | cast (expr : Expr) (ty : TypeExpr) (span : Span)
  | block (block : Block) (span : Span)
  | await (value : Expr) (span : Span)

inductive Block where
  | mk (stmts : List Stmt) (span : Span)

inductive SelectBranch where
  | mk (pattern : String) (channel : Expr) (body : Block) (span : Span)

inductive SelectTimeout where
  | mk (durationMs : Expr) (body : Block) (span : Span)

inductive Stmt where
  | letStmt (name : String) (mutable : Bool) (ty : Option TypeExpr) (value : Option Expr)
      (pattern : Option Pattern) (span : Span)
  | assign (target : Expr) (op : AssignOp) (value : Expr) (span : Span)
  | returnStmt (value : Option Expr) (span : Span)
  | ifStmt (condition : Expr) (thenBlock : Block) (elifClauses : List (Expr × Block))
      (elseBlock : Option Block) (span : Span)
  | forStmt (parallel : Bool) (pattern : Pattern) (iterable : Expr) (body : Block) (span : Span)
  | whileStmt (condition : Expr) (body : Block) (span : Span)
  | breakStmt (span : Span)
  | continueStmt (span : Span)
  | exprStmt (expr : Expr) (span : Span)
  | spawn (expr : Expr) (span : Span)
  | select (branches : List SelectBranch) (timeout : Option SelectTimeout) (span : Span)
  | tryCatch (tryBlock : Block) (catchName : String) (catchBlock : Block) (span : Span)
  | throwStmt (expr : Expr) (span : Span)
  | denyBlock (denied : List String) (body : Block) (span : Span)

end

def Block.stmts : Block → List Stmt
  | .mk stmts _ => stmts

end Kryos.Ast

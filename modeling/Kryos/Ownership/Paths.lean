import Kryos.Lib.DefiniteAssignment
import Kryos.Ownership.Analysis

/-!
# The paths through a function body

What an execution of a body can do with its locals: which it reads and assigns, in which order, and
which scopes it opens. Every condition may turn out either way, every loop may go round any number
of times, every arm of a match may be the one taken, and anything may throw.

The paths differ from the walk of the analysis in several places. An `and` may skip its right
operand, a lambda may never be called, a `+=` reads the variable it assigns to, a `for` or a
`select` binds names, and what is declared in a `deny` block is gone after it.
-/

namespace Kryos.Ownership

open Kryos.Ast DefiniteAssignment

mutual

/-- The names that a pattern binds. Of alternatives the first counts. -/
def patternNames : Pattern → List String
  | .wildcard _ | .literal .. => []
  | .ident name _ _ => [name]
  | .tuple elements _ => patternsNames elements
  | .struct _ fields _ => fieldsNames fields
  | .enum _ _ fields _ => patternsNames fields
  | .or [] _ => []
  | .or (pattern :: _) _ => patternNames pattern

def patternsNames : List Pattern → List String
  | [] => []
  | p :: ps => patternNames p ++ patternsNames ps

def fieldsNames : List (String × Pattern) → List String
  | [] => []
  | (_, p) :: fields => patternNames p ++ fieldsNames fields

end

/-- A name in the pattern of an arm may be that of a variant, which binds nothing. -/
def armNames (pattern : Pattern) (rest : Body String) : Body String :=
  (patternNames pattern).foldr .guess rest

/-- Names that the analysis does not see. -/
def bindNames (init : Bool) (names : List String) (rest : Body String) : Body String :=
  names.foldr (.bind · init) rest

def letNames : Option Pattern → List String
  | none => []
  | some pattern => patternNames pattern

def paramNames (params : List Param) (rest : Body String) : Body String :=
  (params.map Analyzer.paramName).foldr (.declare · true) rest

def isShortCircuit : BinOp → Bool
  | .and | .or => true
  | _ => false

/-- An assignment with an operation reads the old value. -/
def oldValue (name : String) : AssignOp → Prog String
  | .assign => .skip
  | _ => .peek name

/-- One of two branches. -/
def Either (p q : Prog String) : Prog String := .orElse (.seq (.mayLeave .next) p) q

mutual

def exprProg : Expr → Prog String
  | .identifier name _ => .read name
  | .fieldAccess inner _ _ | .unaryOp _ inner _ | .borrow inner _ _ | .deref inner _
  | .weakExpr inner _ | .cast inner _ _ | .await inner _ | .sharedExpr inner _
  | .moveExpr inner _ => exprProg inner
  | .fnCall callee args _ => .seq (exprProg callee) (exprsProg args)
  | .methodCall object _ args _ => .seq (exprProg object) (exprsProg args)
  | .staticMethodCall _ _ args _ => exprsProg args
  | .binaryOp op left right _ =>
    .seq (exprProg left) (if isShortCircuit op then (exprProg right).perhaps else exprProg right)
  | .pipeExpr left right _ | .indexAccess left right _ => .seq (exprProg left) (exprProg right)
  | .arrayLiteral elements _ | .tupleLiteral elements _ => exprsProg elements
  | .mapLiteral entries _ => entriesProg entries
  | .structLiteral _ fields _ => fieldsProg fields
  -- A lambda may be called any number of times. What it reads is read at the earliest here.
  | .lambda params _ body _ =>
    .loop .skip (.handle .ret (.scope (paramNames params (.step (exprProg body) .nil))))
  | .ifExpr condition (.mk thenStmts _) none _ =>
    .seq (exprProg condition) (Prog.scope (stmtsBody thenStmts)).perhaps
  | .ifExpr condition (.mk thenStmts _) (some (.mk elseStmts _)) _ =>
    .seq (exprProg condition) (Either (.scope (stmtsBody thenStmts)) (.scope (stmtsBody elseStmts)))
  | .matchExpr subject arms _ => .seq (exprProg subject) (armsProg arms)
  | .block (.mk stmts _) _ | .comptimeBlock (.mk stmts _) _ | .quantumBlock (.mk stmts _) _
  | .unsafeBlock (.mk stmts _) _ => .scope (stmtsBody stmts)
  | .interpolatedString parts _ => partsProg parts
  | .rangeExpr start stop _ _ => .seq (optionProg start) (optionProg stop)
  | .intLiteral .. | .floatLiteral .. | .stringLiteral .. | .charLiteral .. | .boolLiteral ..
  | .noneLiteral .. => .skip

def exprsProg : List Expr → Prog String
  | [] => .skip
  | e :: es => .seq (exprProg e) (exprsProg es)

def optionProg : Option Expr → Prog String
  | none => .skip
  | some e => exprProg e

def entriesProg : List (Expr × Expr) → Prog String
  | [] => .skip
  | (k, v) :: entries => .seq (.seq (exprProg k) (exprProg v)) (entriesProg entries)

def fieldsProg : List (String × Expr) → Prog String
  | [] => .skip
  | (_, v) :: fields => .seq (exprProg v) (fieldsProg fields)

def partsProg : List StringPart → Prog String
  | [] => .skip
  | .literal _ :: parts => partsProg parts
  | .expr e :: parts => .seq (exprProg e) (partsProg parts)

/-- An arm is left for the next one when its pattern or its guard fails. -/
def armProg : MatchArm → Prog String
  | .mk pattern guard body _ =>
    .scope (.step (.mayLeave .next) (armNames pattern
      (.step (.seq (optionProg guard) (.mayLeave .next)) (.step (exprProg body) .nil))))

def armsProg : List MatchArm → Prog String
  | [] => .skip
  | [arm] => .handle .next (armProg arm)
  | arm :: arms => .orElse (armProg arm) (armsProg arms)

def stmtsBody : List Stmt → Body String
  | [] => .nil
  | s :: stmts => stmtBody s (stmtsBody stmts)

/-- A statement, and after it the rest of its block. -/
def stmtBody : Stmt → Body String → Body String
  | .letStmt name _ _ (some init) pattern _, rest =>
    .step (exprProg init) (.declare name true (bindNames true (letNames pattern) rest))
  | .letStmt name _ _ none pattern _, rest =>
    .declare name false (bindNames false (letNames pattern) rest)
  | .assign (.identifier name _) op value _, rest =>
    .step (.seq (exprProg value) (.seq (oldValue name op) (.assign name))) rest
  | .assign (.fieldAccess object _ _) _ value _, rest =>
    .step (.seq (exprProg value) (exprProg object)) rest
  | .assign target _ value _, rest => .step (.seq (exprProg value) (exprProg target)) rest
  | .exprStmt e _, rest => .step (exprProg e) rest
  | .returnStmt none _, rest => .step (.leave .ret) rest
  | .returnStmt (some e) _, rest => .step (.seq (exprProg e) (.leave .ret)) rest
  | .ifStmt condition (.mk thenStmts _) elifs none _, rest =>
    .step (.seq (exprProg condition)
      (Either (.scope (stmtsBody thenStmts)) (elifsProg elifs .skip))) rest
  | .ifStmt condition (.mk thenStmts _) elifs (some (.mk elseStmts _)) _, rest =>
    .step (.seq (exprProg condition)
      (Either (.scope (stmtsBody thenStmts)) (elifsProg elifs (.scope (stmtsBody elseStmts))))) rest
  | .forStmt _ pattern iterable (.mk body _) _, rest =>
    .step (.seq (exprProg iterable)
      (.loop .skip (.scope (bindNames true (patternNames pattern) (stmtsBody body))))) rest
  | .whileStmt condition (.mk body _) _, rest =>
    .step (.loop (exprProg condition) (.scope (stmtsBody body))) rest
  | .spawn e _, rest => .step (exprProg e).perhaps rest
  | .select branches timeout _, rest => .step (selectProg branches (timeoutProg timeout)) rest
  | .tryCatch (.mk tryStmts _) catchName (.mk catchStmts _) _, rest =>
    .step (.attempt (.scope (stmtsBody tryStmts))
      (.scope (.declare catchName true (stmtsBody catchStmts)))) rest
  | .throwStmt e _, rest => .step (.seq (exprProg e) (.leave .raise)) rest
  | .denyBlock _ (.mk body _) _, rest => .merged (stmtsBody body) rest
  | .breakStmt _, rest => .step (.leave .brk) rest
  | .continueStmt _, rest => .step (.leave .cont) rest

/-- The conditions are tried in order. -/
def elifsProg : List (Expr × Block) → Prog String → Prog String
  | [], q => q
  | (condition, .mk stmts _) :: elifs, q =>
    .orElse (.seq (exprProg condition) (.seq (.mayLeave .next) (.scope (stmtsBody stmts))))
      (elifsProg elifs q)

/-- The channels are evaluated first, and then the timeout. At most one of the bodies runs, and none
when all channels are closed. -/
def selectProg : List SelectBranch → Option (Prog String) → Prog String
  | [], none => .skip
  | [], some timeout => timeout
  | [.mk name channel (.mk stmts _) _], none =>
    .seq (exprProg channel) (Prog.scope (.bind name true (stmtsBody stmts))).perhaps
  | .mk name channel (.mk stmts _) _ :: branches, timeout =>
    .seq (exprProg channel)
      (.defer (.scope (.bind name true (stmtsBody stmts))) (selectProg branches timeout))

def timeoutProg : Option SelectTimeout → Option (Prog String)
  | none => none
  | some (.mk duration (.mk stmts _) _) =>
    some (.seq (.unseen (exprProg duration)) (Prog.unseen (.scope (stmtsBody stmts))).perhaps)

end

/-- The body of a function or of a handler. -/
def functionProg (params : List Param) (body : Block) : Prog String :=
  .handle .ret (.scope (paramNames params (stmtsBody body.stmts)))

end Kryos.Ownership

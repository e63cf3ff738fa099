import Kryos.Ast
import Kryos.Types.CapRow

/-!
# The walk that charges capability rows

The type checker walks a function body once. Each call charges the row of the type of its callee to
the row on top of a stack; a function body, a lambda body and a `deny!` block have a row of their
own on the stack while they are walked. At the end of a `deny!` block its row is judged and filed.

Which row a call charges and which of its arguments are walked depends on the types that inference
finds. `Typing` holds these as a parameter, keyed by the span of the node, so that what is proved
here holds for whatever inference finds.
-/

namespace Kryos.Types

open Kryos.Ast Kryos.Capabilities

/-- The type of the callee of a call, as far as the call looks at it. A callable is opaque if it
takes and returns `any`. -/
inductive CalleeTy where
  | function (params : ℕ) (isOpaque : Bool) (caps : CapRow)
  | other

/-- What a method call finds under the name of the method. -/
inductive MethodTy where
  | bound (params : ℕ)
  | dynTrait (params : ℕ) (byValue : Bool)
  | variant (fields : ℕ)
  | method (params : ℕ) (caps : CapRow)
  | field (params : ℕ) (isOpaque : Bool) (caps : CapRow)
  | rejected

/-- What a call `Type::name` finds. -/
inductive StaticTy where
  | variant (fields : ℕ)
  | method (params : ℕ) (caps : CapRow)
  | function (params : ℕ) (caps : CapRow)
  | rejected

/-- What inference finds out about the nodes of a body. -/
structure Typing where
  requiredCapabilityForBuiltin : String → Option Capability
  /-- The callee is a bare variant of an enum, with this many fields. -/
  bareVariant : Span → Option ℕ
  callee : Span → CalleeTy
  /-- The first argument of the call is a map. -/
  firstIsMap : Span → Bool
  /-- The object of the method call names a type and no variable. -/
  namesType : Span → Bool
  method : Span → MethodTy
  static : Span → StaticTy
  /-- The struct literal is of a known struct or of an actor. -/
  knownStruct : Span → Bool
  /-- How rows resolve at the end of a `deny!` block. -/
  resolveAt : Span → CapRow → CapRow

structure DenyBlock where
  denied : List String
  body : Block
  span : Span

/-- A `deny!` block that was judged and filed with `record_deny_obligation`: the row of its body,
and the denied capabilities that were reported on the spot. -/
structure FiledDeny where
  block : DenyBlock
  row : CapRow
  reported : List String

structure Rows where
  stack : List CapRow
  filed : List FiledDeny

namespace Rows

def new : Rows := ⟨[], []⟩

def push (σ : Rows) : Rows := { σ with stack := .empty :: σ.stack }

def pop (σ : Rows) : CapRow × Rows :=
  match σ.stack with
  | [] => (.empty, σ)
  | top :: rest => (top, { σ with stack := rest })

def accumulateCaps (σ : Rows) (row : CapRow) : Rows :=
  match σ.stack with
  | [] => σ
  | top :: rest => { σ with stack := top.union row :: rest }

def accumulateBuiltinCall (o : Typing) (σ : Rows) (name : String) : Rows :=
  match o.requiredCapabilityForBuiltin name with
  | none => σ
  | some cap =>
    match σ.stack with
    | [] => σ
    | top :: rest => { σ with stack := top.unionBits {cap} :: rest }

/-- The end of a `deny!` block: the verdict on what the row holds right now, and the row filed for
the verdict at the end of the module. -/
def judge (o : Typing) (σ : Rows) (block : DenyBlock) (row : CapRow) : Rows :=
  let used := deniedCapsUsed block.denied (o.resolveAt block.span row).concreteBits
  { σ with filed := σ.filed ++ [⟨block, row, used⟩] }

end Rows

/-! ### Which arguments are walked -/

def calleeName : Expr → Option String
  | .identifier name _ => some name
  | _ => none

/-- The arguments of a call of a function that are walked, in the order in which they are. `keys`
looks at its first argument before it falls back to walking them all, and the array builtins look
at nothing else. -/
def functionArgs (name : Option String) (params : ℕ) (isOpaque isMap : Bool) (n : ℕ) : List ℕ :=
  if isOpaque then
    if 0 < n ∧ (name = some "map_keys" ∨ name = some "keys") then
      if isMap then [0] else 0 :: List.range n
    else if 0 < n ∧ (name = some "reverse" ∨ name = some "sort") then [0]
    else List.range n
  else if (name = some "assert" ∧ n = 1 ∧ params = 2) ∨ n = params then List.range n
  else []

/-- The arguments are walked if their number is right. -/
def arityArgs (params n : ℕ) : List ℕ := if n = params then List.range n else []

/-- The arguments of a constructor are walked as far as it has fields. -/
def variantArgs (fields n : ℕ) : List ℕ := List.range (min n fields)

def methodArgs : MethodTy → ℕ → List ℕ
  | .bound params, n | .dynTrait params _, n | .method params _, n => arityArgs params n
  | .variant fields, n => variantArgs fields n
  | .field params isOpaque _, n => if isOpaque then List.range n else arityArgs params n
  | .rejected, _ => []

def staticArgs : StaticTy → ℕ → List ℕ
  | .variant fields, n => variantArgs fields n
  | .method params _, n | .function params _, n => arityArgs params n
  | .rejected, _ => []

/-- The row that a method call charges. A `dyn` method that returns a by-value aggregate is
rejected before its row is charged. -/
def methodCharge : MethodTy → CapRow
  | .bound _ | .dynTrait _ false => .unknown
  | .method _ caps | .field _ _ caps => caps
  | .dynTrait _ true | .variant _ | .rejected => .empty

def staticCharge : StaticTy → CapRow
  | .method _ caps | .function _ caps => caps
  | .variant _ | .rejected => .empty

/-! ### The walk -/

/-- Walk the arguments with the given positions. -/
def walkArgs (args : List (Rows → Rows)) (idx : List ℕ) (σ : Rows) : Rows :=
  idx.foldl (fun σ i => args.getD i id σ) σ

/-- A call `callee(args)`. -/
def walkCall (o : Typing) (name : Option String) (callee : Rows → Rows)
    (args : List (Rows → Rows)) (span : Span) (σ : Rows) : Rows :=
  let σ := name.elim σ (σ.accumulateBuiltinCall o)
  match name.bind fun _ => o.bareVariant span with
  | some fields => walkArgs args (variantArgs fields args.length) σ
  | none =>
    match o.callee span with
    | .function params isOpaque caps =>
      walkArgs args (functionArgs name params isOpaque (o.firstIsMap span) args.length)
        ((callee σ).accumulateCaps caps)
    | .other => callee σ

def walkStatic (o : Typing) (args : List (Rows → Rows)) (span : Span) (σ : Rows) : Rows :=
  (walkArgs args (staticArgs (o.static span) args.length) σ).accumulateCaps
    (staticCharge (o.static span))

def walkMethod (o : Typing) (object : Rows → Rows) (args : List (Rows → Rows)) (span : Span)
    (σ : Rows) : Rows :=
  (walkArgs args (methodArgs (o.method span) args.length) (object σ)).accumulateCaps
    (methodCharge (o.method span))

/-- The call names a type with its object, so it is a static call. -/
def isStaticCall (o : Typing) (object : Expr) (span : Span) : Bool :=
  (calleeName object).isSome && o.namesType span

/-- A body with a row of its own. -/
def walkFrame (body : Rows → Rows) (σ : Rows) : CapRow × Rows := (body σ.push).pop

def walkDeny (o : Typing) (block : DenyBlock) (body : Rows → Rows) (σ : Rows) : Rows :=
  let (row, σ) := walkFrame body σ
  (σ.judge o block row).accumulateCaps row

mutual

def inferExpr (o : Typing) : Expr → Rows → Rows
  | .intLiteral .., σ | .floatLiteral .., σ | .stringLiteral .., σ | .charLiteral .., σ
  | .boolLiteral .., σ | .noneLiteral .., σ | .identifier .., σ => σ
  | .interpolatedString parts _, σ => inferParts o parts σ
  | .fieldAccess object _ _, σ => inferExpr o object σ
  | .indexAccess object index _, σ => inferExpr o index (inferExpr o object σ)
  | .binaryOp _ left right _, σ => inferExpr o right (inferExpr o left σ)
  | .unaryOp _ operand _, σ => inferExpr o operand σ
  | .fnCall callee args span, σ =>
    walkCall o (calleeName callee) (inferExpr o callee) (inferArgs o args) span σ
  | .methodCall object _ args span, σ =>
    if isStaticCall o object span then walkStatic o (inferArgs o args) span σ
    else walkMethod o (inferExpr o object) (inferArgs o args) span σ
  | .staticMethodCall _ _ args span, σ => walkStatic o (inferArgs o args) span σ
  | .arrayLiteral elements _, σ | .tupleLiteral elements _, σ => inferExprs o elements σ
  | .mapLiteral entries _, σ => inferEntries o entries σ
  | .structLiteral _ fields span, σ =>
    if o.knownStruct span then inferFields o fields σ else σ
  | .lambda _ _ body _, σ => (walkFrame (inferExpr o body) σ).2
  | .ifExpr condition thenBranch elseBranch _, σ =>
    inferBlockOpt o elseBranch (inferBlockAsExpr o thenBranch (inferExpr o condition σ))
  | .matchExpr subject arms _, σ => inferArms o arms (inferExpr o subject σ)
  | .rangeExpr start stop _ _, σ => inferExprOpt o stop (inferExprOpt o start σ)
  -- `a |> f(b)` is `f(a, b)`, and `a |> f` is `f(a)`.
  | .pipeExpr left (.fnCall callee args span) _, σ =>
    walkCall o (calleeName callee) (inferExpr o callee) (inferExpr o left :: inferArgs o args)
      span σ
  | .pipeExpr left right span, σ =>
    walkCall o (calleeName right) (inferExpr o right) [inferExpr o left] span σ
  | .borrow inner _ _, σ | .deref inner _, σ | .sharedExpr inner _, σ | .moveExpr inner _, σ
  | .weakExpr inner _, σ | .cast inner _ _, σ | .await inner _, σ => inferExpr o inner σ
  | .comptimeBlock body _, σ | .quantumBlock body _, σ | .unsafeBlock body _, σ =>
    checkBlock o body σ
  | .block block _, σ => inferBlockAsExpr o block σ

def inferExprOpt (o : Typing) : Option Expr → Rows → Rows
  | none, σ => σ
  | some e, σ => inferExpr o e σ

def inferExprs (o : Typing) : List Expr → Rows → Rows
  | [], σ => σ
  | e :: es, σ => inferExprs o es (inferExpr o e σ)

def inferArgs (o : Typing) : List Expr → List (Rows → Rows)
  | [] => []
  | e :: es => inferExpr o e :: inferArgs o es

def inferParts (o : Typing) : List StringPart → Rows → Rows
  | [], σ => σ
  | .literal _ :: parts, σ => inferParts o parts σ
  | .expr e :: parts, σ => inferParts o parts (inferExpr o e σ)

def inferEntries (o : Typing) : List (Expr × Expr) → Rows → Rows
  | [], σ => σ
  | (k, v) :: entries, σ => inferEntries o entries (inferExpr o v (inferExpr o k σ))

def inferFields (o : Typing) : List (String × Expr) → Rows → Rows
  | [], σ => σ
  | (_, e) :: fields, σ => inferFields o fields (inferExpr o e σ)

/-- The arms of a `match`. The guard of an arm is not looked at. -/
def inferArms (o : Typing) : List MatchArm → Rows → Rows
  | [], σ => σ
  | .mk _ _ body _ :: arms, σ => inferArms o arms (inferExpr o body σ)

def checkBlock (o : Typing) : Block → Rows → Rows
  | .mk stmts _, σ => checkStmts o stmts σ

def checkBlockOpt (o : Typing) : Option Block → Rows → Rows
  | none, σ => σ
  | some b, σ => checkBlock o b σ

def checkStmts (o : Typing) : List Stmt → Rows → Rows
  | [], σ => σ
  | s :: stmts, σ => checkStmts o stmts (checkStmt o s σ)

/-- A block whose value is used. Its last statement is walked for its value. -/
def inferBlockAsExpr (o : Typing) : Block → Rows → Rows
  | .mk stmts _, σ => inferTail o stmts σ

def inferBlockOpt (o : Typing) : Option Block → Rows → Rows
  | none, σ => σ
  | some b, σ => inferBlockAsExpr o b σ

def inferTail (o : Typing) : List Stmt → Rows → Rows
  | [], σ => σ
  | [.exprStmt e _], σ => inferExpr o e σ
  | [.ifStmt condition thenBlock elifs (some elseBlock) _], σ =>
    inferBlockAsExpr o elseBlock
      (inferElifs o elifs (inferBlockAsExpr o thenBlock (inferExpr o condition σ)))
  | [.tryCatch tryBlock _ catchBlock _], σ =>
    inferBlockAsExpr o catchBlock (inferBlockAsExpr o tryBlock σ)
  | s :: stmts, σ => inferTail o stmts (checkStmt o s σ)

def inferElifs (o : Typing) : List (Expr × Block) → Rows → Rows
  | [], σ => σ
  | (c, b) :: elifs, σ => inferElifs o elifs (inferBlockAsExpr o b (inferExpr o c σ))

def checkElifs (o : Typing) : List (Expr × Block) → Rows → Rows
  | [], σ => σ
  | (c, b) :: elifs, σ => checkElifs o elifs (checkBlock o b (inferExpr o c σ))

def checkStmt (o : Typing) : Stmt → Rows → Rows
  | .letStmt _ _ _ value _ _, σ => inferExprOpt o value σ
  | .assign target _ value _, σ => inferExpr o value (inferExpr o target σ)
  | .returnStmt value _, σ => inferExprOpt o value σ
  | .ifStmt condition thenBlock elifs elseBlock _, σ =>
    checkBlockOpt o elseBlock (checkElifs o elifs (checkBlock o thenBlock (inferExpr o condition σ)))
  | .forStmt _ _ iterable body _, σ => checkBlock o body (inferExpr o iterable σ)
  | .whileStmt condition body _, σ => checkBlock o body (inferExpr o condition σ)
  | .exprStmt e _, σ | .throwStmt e _, σ | .spawn e _, σ => inferExpr o e σ
  | .tryCatch tryBlock _ catchBlock _, σ => checkBlock o catchBlock (checkBlock o tryBlock σ)
  | .breakStmt _, σ | .continueStmt _, σ | .select .., σ => σ
  | .denyBlock denied body span, σ => walkDeny o ⟨denied, body, span⟩ (checkBlock o body) σ

end

/-- The walk of the body of a function: the row of the function, and the `deny!` blocks filed. -/
def checkFunction (o : Typing) (body : Block) : CapRow × Rows :=
  walkFrame (checkBlock o body) .new

end Kryos.Types

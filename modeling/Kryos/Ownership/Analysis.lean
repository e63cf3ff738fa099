import Mathlib
import Kryos.Decl

/-!
# Ownership analysis

One walk over a function body that keeps the ownership state of every local. A block gets a scope
of its own. At a branch the walk goes on from the state before the branch, and what holds after the
construct is put together by hand from the states after the branches.

`ArcInsertion`s, which the walk also records, are left out: nothing reads them here.
-/

namespace Kryos.Ownership

open Kryos.Ast

inductive OwnershipState where
  | owned | moved | shared | partiallyMoved | uninitialized
deriving DecidableEq, Repr

structure VarInfo where
  state : OwnershipState
  mutable : Bool
  isCopy : Bool
  declSpan : Span
  movedSpan : Option Span
  movedFields : List String

/-- The diagnostics, with their codes. -/
inductive Diagnostic where
  /-- E0300 -/
  | useAfterMove (name : String) (useSpan movedSpan : Span)
  /-- E0301 -/
  | useUninitialized (name : String) (useSpan declSpan : Span)
  /-- E0303 -/
  | partialMove (name field : String) (useSpan : Span)
  /-- W0300 -/
  | conditionalMove (name : String) (span : Span)

/-- A hash map. The newest entry of a key counts. -/
abbrev Table (κ β : Type) := List (κ × β)

abbrev OwnershipScope := Table String VarInfo

structure Analyzer where
  /-- The innermost scope comes first. -/
  scopes : List OwnershipScope
  diagnostics : List Diagnostic
  copyStructs : List String
  fnCopyReturns : Table String Bool
  fnReturnStructNames : Table String String
  structFields : Table String (Table String TypeExpr)
  enumVariantFields : Table (String × String) (List TypeExpr)
  varStructNames : Table String String
  varElemIsCopy : Table String Bool
  fnReturnTupleElems : Table String (List TypeExpr)
  varTupleElemTypes : Table String (List TypeExpr)

namespace Analyzer

/-! ### Scopes -/

def pushScope (σ : Analyzer) : Analyzer := { σ with scopes := [] :: σ.scopes }

def popScope (σ : Analyzer) : Analyzer := { σ with scopes := σ.scopes.tail }

def defineVar (σ : Analyzer) (name : String) (info : VarInfo) : Analyzer :=
  match σ.scopes with
  | [] => σ
  | scope :: scopes => { σ with scopes := ((name, info) :: scope) :: scopes }

def lookupIn : List OwnershipScope → String → Option VarInfo
  | [], _ => none
  | scope :: scopes, name =>
    match scope.lookup name with
    | some info => some info
    | none => lookupIn scopes name

def lookupVar (σ : Analyzer) (name : String) : Option VarInfo := lookupIn σ.scopes name

/-- Change the entry that a lookup finds. -/
def modifyIn (f : VarInfo → VarInfo) : List OwnershipScope → String → List OwnershipScope
  | [], _ => []
  | scope :: scopes, name =>
    match scope.lookup name with
    | some info => ((name, f info) :: scope) :: scopes
    | none => scope :: modifyIn f scopes name

def modifyVar (σ : Analyzer) (name : String) (f : VarInfo → VarInfo) : Analyzer :=
  { σ with scopes := modifyIn f σ.scopes name }

abbrev Snapshot := List (String × OwnershipState × List String)

/-- The names in scope, each with what a lookup finds. -/
def snapshotFull (σ : Analyzer) : Snapshot :=
  (σ.scopes.flatten.map Prod.fst).dedup.filterMap fun name =>
    (σ.lookupVar name).map fun info => (name, info.state, info.movedFields)

def stateOf (σ : Analyzer) (name : String) : Option OwnershipState :=
  (σ.lookupVar name).map VarInfo.state

def restoreState (σ : Analyzer) (name : String) (state : OwnershipState) : Analyzer :=
  σ.modifyVar name fun info => { info with state, movedFields := [] }

def restoreFull (σ : Analyzer) (before : Snapshot) : Analyzer :=
  before.foldl (fun σ entry =>
    σ.modifyVar entry.1 fun info => { info with state := entry.2.1, movedFields := entry.2.2 }) σ

def report (σ : Analyzer) (d : Diagnostic) : Analyzer :=
  { σ with diagnostics := σ.diagnostics ++ [d] }

/-! ### Copy types -/

def isPrimitiveCopyType (name : String) : Bool :=
  name ∈ ["i8", "i16", "i32", "i64", "i128", "u8", "u16", "u32", "u64", "u128", "f32", "f64", "bool",
    "char", "usize", "isize", "str", "string", "String"]

def isCopyTypeName (σ : Analyzer) (name : String) : Bool :=
  isPrimitiveCopyType name || name ∈ σ.copyStructs

mutual

def isTypeExprCopy (σ : Analyzer) : TypeExpr → Bool
  | .simple name _ => σ.isCopyTypeName name
  | .tuple elements _ => allTypeExprsCopy σ elements
  | .function .. => true
  | .array .. => true
  | _ => false

def allTypeExprsCopy (σ : Analyzer) : List TypeExpr → Bool
  | [] => true
  | t :: ts => isTypeExprCopy σ t && allTypeExprsCopy σ ts

end

def copyBuiltins : List String :=
  ["len", "parse_int", "parse_float", "time_now", "abs", "min", "max", "floor", "ceil", "round",
    "sqrt", "pow", "log", "sin", "cos", "tan", "char_code", "int", "float", "to_string", "char_from",
    "substr", "type_of", "env_get", "file_read", "buf_new", "buf_len", "buf_get_byte",
    "buf_write_to_file"]

def copyMethods : List String :=
  ["len", "count", "size", "capacity", "is_empty", "contains", "starts_with", "ends_with",
    "parse_int", "parse_float", "abs", "min", "max", "floor", "ceil", "round", "sqrt", "pow", "log",
    "sin", "cos", "tan", "clone"]

/-- The decimal digits of a `usize`, with an optional plus sign. -/
def parseUsize (s : String) : Option Nat :=
  let digits := if s.startsWith "+" then s.toList.tail else s.toList
  if digits ≠ [] ∧ digits.all Char.isDigit then
    let n := digits.foldl (fun n c => 10 * n + (c.toNat - '0'.toNat)) 0
    if n < 2 ^ 64 then some n else none
  else none

/-- The name of the function that a call expression calls. -/
def calleeIdent : Expr → Option String
  | .fnCall (.identifier name _) _ _ => some name
  | _ => none

/-- The field of a value whose struct or tuple type is known. -/
def fieldIsCopy (σ : Analyzer) (object : Expr) (field : String) : Option Bool :=
  let structName := match object with
    | .identifier name _ => σ.varStructNames.lookup name
    | .structLiteral name _ _ => some name
    | object => (calleeIdent object).bind fun f => σ.fnReturnStructNames.lookup f
  let tupleElems := match object with
    | .identifier name _ => σ.varTupleElemTypes.lookup name
    | object => (calleeIdent object).bind fun f => σ.fnReturnTupleElems.lookup f
  match structName.bind fun s => (σ.structFields.lookup s).bind (·.lookup field) with
  | some ty => some (σ.isTypeExprCopy ty)
  | none => (tupleElems.bind fun ts => (parseUsize field).bind (ts[·]?)).map σ.isTypeExprCopy

def callIsCopy (σ : Analyzer) (name : String) (args : List Expr) : Bool :=
  if name ∈ copyBuiltins then true
  else
    match name, args with
    | "pop", [.identifier array _] => (σ.varElemIsCopy.lookup array).getD false
    | "pop", [_] => false
    | name, _ => (σ.fnCopyReturns.lookup name).getD false

mutual

def exprIsCopy (σ : Analyzer) : Expr → Bool
  | .intLiteral .. | .floatLiteral .. | .boolLiteral .. | .charLiteral .. | .stringLiteral .. => true
  | .lambda .. => true
  | .identifier name _ => ((σ.lookupVar name).map VarInfo.isCopy).getD false
  | .binaryOp _ left right _ => exprIsCopy σ left && exprIsCopy σ right
  | .unaryOp _ operand _ => exprIsCopy σ operand
  | .fnCall (.identifier name _) args _ => callIsCopy σ name args
  | .fnCall .. => false
  | .methodCall _ method _ _ =>
    if method ∈ copyMethods then true else (σ.fnCopyReturns.lookup method).getD false
  | .staticMethodCall typeName method _ _ =>
    (σ.fnCopyReturns.lookup (typeName ++ "__" ++ method)).getD false
  | .matchExpr _ arms _ => !arms.isEmpty && armsAreCopy σ arms
  | .ifExpr _ (.mk thenStmts _) elseBranch _ =>
    lastExprIsCopy σ thenStmts && elseIsCopy σ elseBranch
  | .cast _ ty _ => isTypeExprCopy σ ty
  | .rangeExpr .. => true
  | .indexAccess .. => true
  | .block (.mk stmts _) _ => lastExprIsCopy σ stmts
  | .fieldAccess object field _ => (fieldIsCopy σ object field).getD (exprIsCopy σ object)
  | .pipeExpr _ right _ => exprIsCopy σ right
  | .borrow inner _ _ => exprIsCopy σ inner
  | .deref inner _ => exprIsCopy σ inner
  | .moveExpr inner _ => exprIsCopy σ inner
  | .structLiteral name _ _ => name ∈ σ.copyStructs
  | .arrayLiteral .. => true
  | _ => false

def armsAreCopy (σ : Analyzer) : List MatchArm → Bool
  | [] => true
  | .mk _ _ body _ :: arms => exprIsCopy σ body && armsAreCopy σ arms

def elseIsCopy (σ : Analyzer) : Option Block → Bool
  | none => true
  | some (.mk stmts _) => lastExprIsCopy σ stmts

/-- The value of a block is that of its last statement. -/
def lastExprIsCopy (σ : Analyzer) : List Stmt → Bool
  | [] => false
  | [.exprStmt e _] => exprIsCopy σ e
  | [.returnStmt (some e) _] => exprIsCopy σ e
  | [_] => false
  | _ :: stmts => lastExprIsCopy σ stmts

end

/-! ### Binding and use -/

end Analyzer

def VarInfo.fresh (state : OwnershipState) (mutable isCopy : Bool) (declSpan : Span) : VarInfo :=
  { state, mutable, isCopy, declSpan, movedSpan := none, movedFields := [] }

namespace Analyzer

/-- The types of the fields of a variant. A pattern that names no enum takes the first enum that has
the variant. -/
def payloadTypes (σ : Analyzer) (name variant : String) : List TypeExpr :=
  match σ.enumVariantFields.lookup (name, variant) with
  | some tys => tys
  | none =>
    if name = "" then
      ((σ.enumVariantFields.find? (·.1.2 = variant)).map Prod.snd).getD []
    else []

def tyStructName : Option TypeExpr → Option String
  | some (.simple name _) => some name
  | _ => none

def recordStructName (σ : Analyzer) (name : String) : Option String → Analyzer
  | some s => { σ with varStructNames := (name, s) :: σ.varStructNames }
  | none => σ

/-- A field of a variant that is bound to a name. -/
def bindField (σ : Analyzer) (ty : Option TypeExpr) (name : String) (mutable : Bool)
    (span : Span) : Analyzer :=
  (σ.recordStructName name (tyStructName ty)).defineVar name
    (.fresh .owned mutable ((ty.map σ.isTypeExprCopy).getD false) span)

mutual

def bindPattern : Pattern → Analyzer → Analyzer
  | .wildcard _, σ | .literal .., σ => σ
  | .ident name mutable span, σ => σ.defineVar name (.fresh .owned mutable false span)
  | .tuple elements _, σ => bindPatterns elements σ
  | .struct _ fields _, σ => bindFields fields σ
  | .enum name variant fields _, σ => bindPayload fields (σ.payloadTypes name variant) σ
  | .or [] _, σ => σ
  | .or (pattern :: _) _, σ => bindPattern pattern σ

def bindPatterns : List Pattern → Analyzer → Analyzer
  | [], σ => σ
  | p :: ps, σ => bindPatterns ps (bindPattern p σ)

def bindFields : List (String × Pattern) → Analyzer → Analyzer
  | [], σ => σ
  | (_, p) :: fields, σ => bindFields fields (bindPattern p σ)

def bindPayload : List Pattern → List TypeExpr → Analyzer → Analyzer
  | [], _, σ => σ
  | .ident name mutable span :: ps, tys, σ =>
    bindPayload ps tys.tail (σ.bindField tys.head? name mutable span)
  | p :: ps, tys, σ => bindPayload ps tys.tail (bindPattern p σ)

end

def checkUsable (σ : Analyzer) (name : String) (span : Span) : Analyzer :=
  match σ.lookupVar name with
  | none => σ
  | some info =>
    match info.state with
    | .moved => σ.report (.useAfterMove name span (info.movedSpan.getD info.declSpan))
    | .uninitialized => σ.report (.useUninitialized name span info.declSpan)
    | .partiallyMoved | .owned | .shared => σ

def moveVar (σ : Analyzer) (name : String) (span : Span) : Analyzer :=
  match σ.lookupVar name with
  | none => σ
  | some info =>
    if info.isCopy ∨ info.state = .shared then σ
    else σ.modifyVar name fun info => { info with state := .moved, movedSpan := some span }

def assignVar (σ : Analyzer) (name : String) : Analyzer :=
  σ.modifyVar name fun info => { info with state := .owned, movedSpan := none, movedFields := [] }

/-- The variable whose field `field` has been moved out, if `object` is such a variable. -/
def movedFieldOf (σ : Analyzer) (object : Expr) (field : String) : Option String :=
  match object with
  | .identifier name _ =>
    match σ.lookupVar name with
    | some info => if !info.isCopy ∧ field ∈ info.movedFields then some name else none
    | none => none
  | _ => none

/-! ### Captures -/

section Captures

-- the names that a lambda takes from around it: those that are no parameters and are known
variable (captured : String → Bool)

mutual

def collectCaptures : Expr → List String
  | .identifier name _ => if captured name then [name] else []
  | .binaryOp _ left right _ | .pipeExpr left right _ =>
    collectCaptures left ++ collectCaptures right
  | .unaryOp _ operand _ => collectCaptures operand
  | .fnCall callee args _ => collectCaptures callee ++ collectCapturesExprs args
  | .methodCall object _ args _ => collectCaptures object ++ collectCapturesExprs args
  | .staticMethodCall _ _ args _ => collectCapturesExprs args
  | .fieldAccess object _ _ => collectCaptures object
  | .indexAccess object index _ => collectCaptures object ++ collectCaptures index
  | .arrayLiteral elements _ | .tupleLiteral elements _ => collectCapturesExprs elements
  | .mapLiteral entries _ => collectCapturesEntries entries
  | .structLiteral _ fields _ => collectCapturesFields fields
  | .ifExpr condition (.mk thenStmts _) none _ =>
    collectCaptures condition ++ collectCapturesStmts thenStmts
  | .ifExpr condition (.mk thenStmts _) (some (.mk elseStmts _)) _ =>
    collectCaptures condition ++ collectCapturesStmts thenStmts ++ collectCapturesStmts elseStmts
  | .sharedExpr inner _ | .moveExpr inner _ | .weakExpr inner _ | .cast inner _ _ =>
    collectCaptures inner
  | .block (.mk stmts _) _ | .comptimeBlock (.mk stmts _) _ | .quantumBlock (.mk stmts _) _
  | .unsafeBlock (.mk stmts _) _ => collectCapturesStmts stmts
  | .interpolatedString parts _ => collectCapturesParts parts
  | .rangeExpr start stop _ _ => collectCapturesOption start ++ collectCapturesOption stop
  | .matchExpr subject arms _ => collectCaptures subject ++ collectCapturesArms arms
  | .lambda _ _ body _ => collectCaptures body
  | .intLiteral .. | .floatLiteral .. | .stringLiteral .. | .charLiteral .. | .boolLiteral ..
  | .noneLiteral .. => []
  -- not looked into
  | .borrow .. | .deref .. | .await .. => []

def collectCapturesExprs : List Expr → List String
  | [] => []
  | e :: es => collectCaptures e ++ collectCapturesExprs es

def collectCapturesOption : Option Expr → List String
  | none => []
  | some e => collectCaptures e

def collectCapturesEntries : List (Expr × Expr) → List String
  | [] => []
  | (k, v) :: entries => collectCaptures k ++ collectCaptures v ++ collectCapturesEntries entries

def collectCapturesFields : List (String × Expr) → List String
  | [] => []
  | (_, v) :: fields => collectCaptures v ++ collectCapturesFields fields

def collectCapturesParts : List StringPart → List String
  | [] => []
  | .literal _ :: parts => collectCapturesParts parts
  | .expr e :: parts => collectCaptures e ++ collectCapturesParts parts

def collectCapturesArms : List MatchArm → List String
  | [] => []
  | .mk _ guard body _ :: arms =>
    collectCapturesOption guard ++ collectCaptures body ++ collectCapturesArms arms

def collectCapturesStmts : List Stmt → List String
  | [] => []
  | s :: stmts => collectCapturesStmt s ++ collectCapturesStmts stmts

def collectCapturesStmt : Stmt → List String
  | .letStmt _ _ _ value _ _ => collectCapturesOption value
  | .assign target _ value _ => collectCaptures target ++ collectCaptures value
  | .exprStmt e _ | .spawn e _ | .throwStmt e _ => collectCaptures e
  | .returnStmt value _ => collectCapturesOption value
  | .ifStmt condition (.mk thenStmts _) elifs none _ =>
    collectCaptures condition ++ collectCapturesStmts thenStmts ++ collectCapturesElifs elifs
  | .ifStmt condition (.mk thenStmts _) elifs (some (.mk elseStmts _)) _ =>
    collectCaptures condition ++ collectCapturesStmts thenStmts ++ collectCapturesElifs elifs ++
      collectCapturesStmts elseStmts
  | .forStmt _ _ iterable (.mk body _) _ => collectCaptures iterable ++ collectCapturesStmts body
  | .whileStmt condition (.mk body _) _ => collectCaptures condition ++ collectCapturesStmts body
  | .select branches _ _ => collectCapturesBranches branches
  | .tryCatch (.mk tryStmts _) _ (.mk catchStmts _) _ =>
    collectCapturesStmts tryStmts ++ collectCapturesStmts catchStmts
  | .denyBlock _ (.mk body _) _ => collectCapturesStmts body
  | .breakStmt _ | .continueStmt _ => []

def collectCapturesElifs : List (Expr × Block) → List String
  | [] => []
  | (condition, .mk stmts _) :: elifs =>
    collectCaptures condition ++ collectCapturesStmts stmts ++ collectCapturesElifs elifs

def collectCapturesBranches : List SelectBranch → List String
  | [] => []
  | .mk _ channel (.mk stmts _) _ :: branches =>
    collectCaptures channel ++ collectCapturesStmts stmts ++ collectCapturesBranches branches

end

end Captures

/-! ### Joining branches -/

def movedIn (name : String) (branch : Analyzer) : Bool := branch.stateOf name = some .moved

def ownedIn (name : String) (branch : Analyzer) : Bool := branch.stateOf name = some .owned

/-- A move on some paths only is reported where `warnAt` gives a place. -/
def warnMove (σ : Analyzer) (warnAt : Option Span) (branches : List Analyzer) (name : String) :
    Analyzer :=
  match warnAt with
  | some span =>
    if branches.any (movedIn name) && branches.any (ownedIn name) &&
        !((σ.lookupVar name).map VarInfo.isCopy).getD false then
      σ.report (.conditionalMove name span)
    else σ
  | none => σ

/-- Join the moves of one variable. Only a value that was owned before is looked at. `covered` says
that one of the branches is always taken. -/
def mergeMove (covered : Bool) (warnAt : Option Span) (branches : List Analyzer) (σ : Analyzer)
    (entry : String × OwnershipState × List String) : Analyzer :=
  let name := entry.1
  if entry.2.1 ≠ .owned then σ
  else
    let σ := σ.warnMove warnAt branches name
    if covered && branches.all (movedIn name) then σ.restoreState name .moved
    else if branches.any (movedIn name) then σ.restoreState name .owned
    else σ

def mergeMoves (before : Snapshot) (covered : Bool) (warnAt : Option Span)
    (branches : List Analyzer) (σ : Analyzer) : Analyzer :=
  before.foldl (mergeMove covered warnAt branches) σ

/-! ### Declarations of locals -/

/-- Whether a value is only looked at or taken. -/
inductive Access where
  | use | move
deriving DecidableEq

def letIsCopy (σ : Analyzer) (ty : Option TypeExpr) (init : Expr) : Bool :=
  σ.exprIsCopy init || (ty.map σ.isTypeExprCopy).getD false

/-- A variable that is copied into another stays as it is. -/
def initAccess (isCopy : Bool) : Expr → Access
  | .identifier .. => .use
  | _ => if isCopy then .use else .move

def initStructName (σ : Analyzer) : Expr → Option String
  | .structLiteral name _ _ => some name
  | .fnCall (.identifier f _) _ _ => σ.fnReturnStructNames.lookup f
  | .methodCall _ method _ _ => σ.fnReturnStructNames.lookup method
  | _ => none

def initTupleElems (σ : Analyzer) : Expr → Option (List TypeExpr)
  | .fnCall (.identifier f _) _ _ => σ.fnReturnTupleElems.lookup f
  | .methodCall _ method _ _ => σ.fnReturnTupleElems.lookup method
  | _ => none

def initElemIsCopy (σ : Analyzer) : Expr → Option Bool
  | .arrayLiteral (e :: _) _ => some (σ.exprIsCopy e)
  | _ => none

def tyTupleElems : Option TypeExpr → Option (List TypeExpr)
  | some (.tuple elements _) => some elements
  | _ => none

def tyElemIsCopy (σ : Analyzer) : Option TypeExpr → Option Bool
  | some (.array element _ _) => some (σ.isTypeExprCopy element)
  | _ => none

def recordTupleElems (σ : Analyzer) (name : String) : Option (List TypeExpr) → Analyzer
  | some tys => { σ with varTupleElemTypes := (name, tys) :: σ.varTupleElemTypes }
  | none => σ

def recordElemIsCopy (σ : Analyzer) (name : String) : Option Bool → Analyzer
  | some isCopy => { σ with varElemIsCopy := (name, isCopy) :: σ.varElemIsCopy }
  | none => σ

/-- What is known of the type of a local from its annotation or its initialiser. -/
def recordLet (σ : Analyzer) (name : String) (ty : Option TypeExpr) (init : Expr) : Analyzer :=
  let structName := ((σ.initStructName init).or (tyStructName ty)).filter fun s =>
    (σ.structFields.lookup s).isSome
  let σ := σ.recordStructName name structName
  let σ := σ.recordTupleElems name ((tyTupleElems ty).or (σ.initTupleElems init))
  σ.recordElemIsCopy name ((σ.tyElemIsCopy ty).or (σ.initElemIsCopy init))

/-- The local of a `let` with an initialiser, after the initialiser. -/
def defineLet (σ : Analyzer) (name : String) (mutable : Bool) (ty : Option TypeExpr) (init : Expr)
    (isCopy : Bool) (span : Span) : Analyzer :=
  match init with
  | .sharedExpr .. => σ.defineVar name (.fresh .shared mutable false span)
  | .weakExpr .. => σ.defineVar name (.fresh .owned mutable false span)
  | init => (σ.defineVar name (.fresh .owned mutable isCopy span)).recordLet name ty init

/-- A parameter without a type is taken as `defaultCopy` says. -/
def defineParam (defaultCopy : Bool) (σ : Analyzer) : Param → Analyzer
  | .mk name ty _ span =>
    σ.defineVar name (.fresh .owned false ((ty.map σ.isTypeExprCopy).getD defaultCopy) span)

def defineLambdaParam (σ : Analyzer) : Param → Analyzer
  | .mk name ty d span =>
    (σ.defineParam true (.mk name ty d span)).recordTupleElems name (tyTupleElems ty)

def defineFunctionParam (σ : Analyzer) : Param → Analyzer
  | .mk name ty d span =>
    let σ := (σ.defineParam false (.mk name ty d span)).recordStructName name (tyStructName ty)
    (σ.recordElemIsCopy name (σ.tyElemIsCopy ty)).recordTupleElems name (tyTupleElems ty)

def paramName : Param → String
  | .mk name _ _ _ => name

/-! ### The walk -/

/-- The second argument of `send` is taken; all other arguments are only looked at. -/
def isSend : Expr → Bool
  | .identifier name _ => name = "send"
  | _ => false

mutual

/-- `analyze_expr_use` and `analyze_expr_move`. They differ at a variable and at a field only. -/
def analyzeExpr : Expr → Access → Analyzer → Analyzer
  | .identifier name span, .use, σ => σ.checkUsable name span
  | .identifier name span, .move, σ => (σ.checkUsable name span).moveVar name span
  | .fieldAccess object field span, .use, σ =>
    match σ.movedFieldOf object field with
    | some name => σ.report (.partialMove name field span)
    | none => analyzeExpr object .use σ
  | .fieldAccess object _ span, .move, σ =>
    match object with
    | .identifier name _ => σ.checkUsable name span
    | _ => analyzeExpr object .use σ
  | .fnCall callee args _, _, σ =>
    let σ := analyzeExpr callee .use σ
    match isSend callee, args with
    | true, [channel, value] => analyzeExpr value .move (analyzeExpr channel .use σ)
    | _, args => analyzeExprs args σ
  | .methodCall object _ args _, _, σ => analyzeExprs args (analyzeExpr object .use σ)
  | .staticMethodCall _ _ args _, _, σ => analyzeExprs args σ
  | .binaryOp _ left right _, _, σ | .pipeExpr left right _, _, σ
  | .indexAccess left right _, _, σ => analyzeExpr right .use (analyzeExpr left .use σ)
  | .unaryOp _ inner _, _, σ | .borrow inner _ _, _, σ | .deref inner _, _, σ
  | .weakExpr inner _, _, σ | .cast inner _ _, _, σ | .await inner _, _, σ =>
    analyzeExpr inner .use σ
  | .sharedExpr inner _, _, σ | .moveExpr inner _, _, σ => analyzeExpr inner .move σ
  | .arrayLiteral elements _, _, σ | .tupleLiteral elements _, _, σ => analyzeExprs elements σ
  | .mapLiteral entries _, _, σ => analyzeEntries entries σ
  | .structLiteral _ fields _, _, σ => analyzeFields fields σ
  | .lambda params _ body span, _, σ =>
    let captured := collectCaptures
      (fun name => name ∉ params.map paramName && (σ.lookupVar name).isSome) body
    let σ := captured.foldl (fun σ name => σ.checkUsable name span) σ
    (analyzeExpr body .use (params.foldl defineLambdaParam σ.pushScope)).popScope
  | .ifExpr condition (.mk thenStmts _) none _, _, σ =>
    let σ₀ := analyzeExpr condition .use σ
    let σ₁ := (analyzeStmts thenStmts σ₀.pushScope).popScope
    mergeMoves σ₀.snapshotFull false none [σ₁] σ₁
  | .ifExpr condition (.mk thenStmts _) (some (.mk elseStmts _)) _, _, σ =>
    let σ₀ := analyzeExpr condition .use σ
    let σ₁ := (analyzeStmts thenStmts σ₀.pushScope).popScope
    let σ₂ := (analyzeStmts elseStmts (σ₁.restoreFull σ₀.snapshotFull).pushScope).popScope
    mergeMoves σ₀.snapshotFull true none [σ₁, σ₂] σ₂
  | .matchExpr subject arms _, _, σ =>
    let σ₀ := analyzeExpr subject .use σ
    let (branches, σ₁) := analyzeArms arms σ₀.snapshotFull [] σ₀
    mergeMoves σ₀.snapshotFull (!branches.isEmpty) none branches σ₁
  | .block (.mk stmts _) _, _, σ | .comptimeBlock (.mk stmts _) _, _, σ
  | .quantumBlock (.mk stmts _) _, _, σ | .unsafeBlock (.mk stmts _) _, _, σ =>
    (analyzeStmts stmts σ.pushScope).popScope
  | .interpolatedString parts _, _, σ => analyzeParts parts σ
  | .rangeExpr start stop _ _, _, σ => analyzeOption stop (analyzeOption start σ)
  | .intLiteral .., _, σ | .floatLiteral .., _, σ | .stringLiteral .., _, σ | .charLiteral .., _, σ
  | .boolLiteral .., _, σ | .noneLiteral .., _, σ => σ

def analyzeExprs : List Expr → Analyzer → Analyzer
  | [], σ => σ
  | e :: es, σ => analyzeExprs es (analyzeExpr e .use σ)

def analyzeOption : Option Expr → Analyzer → Analyzer
  | none, σ => σ
  | some e, σ => analyzeExpr e .use σ

def analyzeEntries : List (Expr × Expr) → Analyzer → Analyzer
  | [], σ => σ
  | (k, v) :: entries, σ => analyzeEntries entries (analyzeExpr v .use (analyzeExpr k .use σ))

def analyzeFields : List (String × Expr) → Analyzer → Analyzer
  | [], σ => σ
  | (_, v) :: fields, σ => analyzeFields fields (analyzeExpr v .use σ)

def analyzeParts : List StringPart → Analyzer → Analyzer
  | [], σ => σ
  | .literal _ :: parts, σ => analyzeParts parts σ
  | .expr e :: parts, σ => analyzeParts parts (analyzeExpr e .use σ)

/-- The arms of a match, each from the state before. The states after them are collected. -/
def analyzeArms : List MatchArm → Snapshot → List Analyzer → Analyzer → List Analyzer × Analyzer
  | [], _, branches, σ => (branches, σ)
  | .mk pattern guard body _ :: arms, before, branches, σ =>
    let σ := if branches.isEmpty then σ else σ.restoreFull before
    let σ := analyzeOption guard (bindPattern pattern σ.pushScope)
    let σ := (analyzeExpr body .use σ).popScope
    analyzeArms arms before (branches ++ [σ]) σ

def analyzeStmts : List Stmt → Analyzer → Analyzer
  | [], σ => σ
  | s :: stmts, σ => analyzeStmts stmts (analyzeStmt s σ)

def analyzeStmt : Stmt → Analyzer → Analyzer
  | .letStmt name mutable ty (some init) _ span, σ =>
    let isCopy := σ.letIsCopy ty init
    (analyzeExpr init (initAccess isCopy init) σ).defineLet name mutable ty init isCopy span
  | .letStmt name mutable ty none _ span, σ =>
    σ.defineVar name (.fresh .uninitialized mutable ((ty.map σ.isTypeExprCopy).getD false) span)
  | .assign (.identifier name _) _ value _, σ =>
    (analyzeExpr value (initAccess (σ.exprIsCopy value) value) σ).assignVar name
  | .assign (.fieldAccess object _ _) _ value _, σ =>
    analyzeExpr object .use (analyzeExpr value (initAccess (σ.exprIsCopy value) value) σ)
  | .assign target _ value _, σ =>
    analyzeExpr target .use (analyzeExpr value (initAccess (σ.exprIsCopy value) value) σ)
  | .exprStmt e _, σ => analyzeExpr e .use σ
  | .returnStmt none _, σ => σ
  | .returnStmt (some e) _, σ => analyzeExpr e .move σ
  | .ifStmt condition (.mk thenStmts _) elifs elseBlock span, σ =>
    let σ₀ := analyzeExpr condition .use σ
    let before := σ₀.snapshotFull
    let σ₁ := (analyzeStmts thenStmts σ₀.pushScope).popScope
    let (branches, σ₂) := analyzeElifs elifs before [σ₁] σ₁
    match elseBlock with
    | some (.mk elseStmts _) =>
      let σ₃ := (analyzeStmts elseStmts (σ₂.restoreFull before).pushScope).popScope
      mergeMoves before true (some span) (branches ++ [σ₃]) σ₃
    | none => σ₂.restoreFull before
  | .forStmt _ _ iterable (.mk body _) _, σ =>
    (analyzeStmts body (analyzeExpr iterable .use σ).pushScope).popScope
  | .whileStmt condition (.mk body _) _, σ =>
    (analyzeStmts body (analyzeExpr condition .use σ).pushScope).popScope
  | .spawn e _, σ => analyzeExpr e .move σ
  | .select branches _ _, σ => analyzeBranches branches σ
  | .tryCatch (.mk tryStmts _) catchName (.mk catchStmts _) span, σ =>
    let σ := (analyzeStmts tryStmts σ.pushScope).popScope
    let σ := σ.pushScope.defineVar catchName (.fresh .owned false false span)
    (analyzeStmts catchStmts σ).popScope
  | .throwStmt e _, σ => analyzeExpr e .move σ
  | .denyBlock _ (.mk body _) _, σ => analyzeStmts body σ
  | .breakStmt _, σ | .continueStmt _, σ => σ

def analyzeElifs : List (Expr × Block) → Snapshot → List Analyzer → Analyzer →
    List Analyzer × Analyzer
  | [], _, branches, σ => (branches, σ)
  | (condition, .mk stmts _) :: elifs, before, branches, σ =>
    let σ := analyzeExpr condition .use (σ.restoreFull before)
    let σ := (analyzeStmts stmts σ.pushScope).popScope
    analyzeElifs elifs before (branches ++ [σ]) σ

def analyzeBranches : List SelectBranch → Analyzer → Analyzer
  | [], σ => σ
  | .mk _ channel (.mk stmts _) _ :: branches, σ =>
    analyzeBranches branches (analyzeStmts stmts (analyzeExpr channel .use σ).pushScope).popScope

end

/-! ### Modules -/

def analyzeFunction (params : List Param) (body : Block) (σ : Analyzer) : Analyzer :=
  (analyzeStmts body.stmts (params.foldl defineFunctionParam σ.pushScope)).popScope

def analyzeHandler (σ : Analyzer) (handler : MessageHandler) : Analyzer :=
  (analyzeStmts handler.body.stmts
    (handler.params.foldl (defineParam false) σ.pushScope)).popScope

mutual

def analyzeDecl : Decl → Analyzer → Analyzer
  | .function _ _ params _ (some body) .., σ => σ.analyzeFunction params body
  | .actor _ _ handlers .., σ => handlers.foldl analyzeHandler σ
  | .impl _ _ _ methods .., σ => analyzeDecls methods σ
  | _, σ => σ

def analyzeDecls : List Decl → Analyzer → Analyzer
  | [], σ => σ
  | d :: ds, σ => analyzeDecls ds (analyzeDecl d σ)

end

/-- A fresh analyzer. The outermost scope holds nothing. -/
def new : Analyzer :=
  { scopes := [[]], diagnostics := [], copyStructs := [], fnCopyReturns := [],
    fnReturnStructNames := [], structFields := [], enumVariantFields := [], varStructNames := [],
    varElemIsCopy := [], fnReturnTupleElems := [], varTupleElemTypes := [] }

def collectFunction (σ : Analyzer) (name : String) (retTy : Option TypeExpr) : Analyzer :=
  let isCopy := (retTy.map σ.isTypeExprCopy).getD false
  { σ with
    fnCopyReturns := (name, isCopy) :: σ.fnCopyReturns
    fnReturnStructNames :=
      (tyStructName retTy).toList.map (name, ·) ++ σ.fnReturnStructNames
    fnReturnTupleElems :=
      (tyTupleElems retTy).toList.map (name, ·) ++ σ.fnReturnTupleElems }

def collectDecl (σ : Analyzer) : Decl → Analyzer
  | .struct name _ fields _ annotations _ _ =>
    { σ with
      copyStructs := if annotations.any (·.name = "copy") then name :: σ.copyStructs
        else σ.copyStructs
      structFields := (name, fields.reverse.map fun f => (f.name, f.ty)) :: σ.structFields }
  | .function name _ _ retTy .. => σ.collectFunction name retTy
  | .enum name _ variants .. =>
    { σ with
      enumVariantFields :=
        (variants.reverse.map fun v => ((name, v.name), v.fields)) ++ σ.enumVariantFields }
  | _ => σ

def collectMethods (σ : Analyzer) : Decl → Analyzer
  | .impl _ _ _ methods .. => methods.foldl (fun σ method =>
      match method with
      | .function name _ _ retTy .. => σ.collectFunction name retTy
      | _ => σ) σ
  | _ => σ

/-- The tables of a module are collected before any of its declarations is walked over. -/
def analyzeModule (module : Module) : Analyzer :=
  let σ := module.declarations.foldl collectDecl new
  let σ := module.declarations.foldl collectMethods σ
  analyzeDecls module.declarations σ

end Analyzer

end Kryos.Ownership

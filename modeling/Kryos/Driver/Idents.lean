import Kryos.Decl

/-!
# Identifiers of a declaration

A selective import takes the functions that were selected and every function of the module that
they mention. One walk over the syntax tree collects the names that a declaration mentions. A second
one renames the mentions of functions that were not selected, and keeps track of the locals that
shadow them.
-/

namespace Kryos.Driver

open Kryos.Ast

/-! ### Collecting -/

mutual

def collectIdentsInExpr : Expr → List String
  | .identifier name _ => [name]
  | .fieldAccess object _ _ => collectIdentsInExpr object
  | .indexAccess object index _ => collectIdentsInExpr object ++ collectIdentsInExpr index
  | .binaryOp _ left right _ => collectIdentsInExpr left ++ collectIdentsInExpr right
  | .unaryOp _ operand _ => collectIdentsInExpr operand
  | .fnCall callee args _ => collectIdentsInExpr callee ++ collectIdentsInExprs args
  | .methodCall object _ args _ => collectIdentsInExpr object ++ collectIdentsInExprs args
  | .staticMethodCall typeName _ args _ => typeName :: collectIdentsInExprs args
  | .arrayLiteral elements _ => collectIdentsInExprs elements
  | .tupleLiteral elements _ => collectIdentsInExprs elements
  | .mapLiteral entries _ => collectIdentsInEntries entries
  | .structLiteral name fields _ => name :: collectIdentsInFields fields
  | .lambda _ _ body _ => collectIdentsInExpr body
  | .ifExpr condition thenBranch elseBranch _ =>
    collectIdentsInExpr condition ++ (collectIdentsInBlock thenBranch ++
      collectIdentsInBlockOpt elseBranch)
  | .matchExpr subject arms _ => collectIdentsInExpr subject ++ collectIdentsInArms arms
  | .rangeExpr start stop _ _ => collectIdentsInExprOpt start ++ collectIdentsInExprOpt stop
  | .pipeExpr left right _ => collectIdentsInExpr left ++ collectIdentsInExpr right
  | .borrow inner _ _ => collectIdentsInExpr inner
  | .deref inner _ => collectIdentsInExpr inner
  | .sharedExpr inner _ => collectIdentsInExpr inner
  | .moveExpr inner _ => collectIdentsInExpr inner
  | .weakExpr inner _ => collectIdentsInExpr inner
  | .cast inner _ _ => collectIdentsInExpr inner
  | .await value _ => collectIdentsInExpr value
  | .block block _ => collectIdentsInBlock block
  | .comptimeBlock body _ => collectIdentsInBlock body
  | .quantumBlock body _ => collectIdentsInBlock body
  | .interpolatedString parts _ => collectIdentsInParts parts
  | _ => []

def collectIdentsInExprOpt : Option Expr → List String
  | none => []
  | some e => collectIdentsInExpr e

def collectIdentsInExprs : List Expr → List String
  | [] => []
  | e :: es => collectIdentsInExpr e ++ collectIdentsInExprs es

def collectIdentsInParts : List StringPart → List String
  | [] => []
  | .literal _ :: parts => collectIdentsInParts parts
  | .expr e :: parts => collectIdentsInExpr e ++ collectIdentsInParts parts

def collectIdentsInEntries : List (Expr × Expr) → List String
  | [] => []
  | (k, v) :: entries =>
    collectIdentsInExpr k ++ (collectIdentsInExpr v ++ collectIdentsInEntries entries)

def collectIdentsInFields : List (String × Expr) → List String
  | [] => []
  | (_, v) :: fields => collectIdentsInExpr v ++ collectIdentsInFields fields

def collectIdentsInArms : List MatchArm → List String
  | [] => []
  | .mk _ guard body _ :: arms =>
    collectIdentsInExprOpt guard ++ (collectIdentsInExpr body ++ collectIdentsInArms arms)

def collectIdentsInBlock : Block → List String
  | .mk stmts _ => collectIdentsInStmts stmts

def collectIdentsInBlockOpt : Option Block → List String
  | none => []
  | some b => collectIdentsInBlock b

def collectIdentsInStmts : List Stmt → List String
  | [] => []
  | s :: stmts => collectIdentsInStmt s ++ collectIdentsInStmts stmts

def collectIdentsInElifs : List (Expr × Block) → List String
  | [] => []
  | (c, b) :: elifs =>
    collectIdentsInExpr c ++ (collectIdentsInBlock b ++ collectIdentsInElifs elifs)

def collectIdentsInBranches : List SelectBranch → List String
  | [] => []
  | .mk _ channel body _ :: branches =>
    collectIdentsInExpr channel ++ (collectIdentsInBlock body ++ collectIdentsInBranches branches)

def collectIdentsInTimeout : Option SelectTimeout → List String
  | none => []
  | some (.mk durationMs body _) => collectIdentsInExpr durationMs ++ collectIdentsInBlock body

def collectIdentsInStmt : Stmt → List String
  | .letStmt _ _ _ value _ _ => collectIdentsInExprOpt value
  | .assign target _ value _ => collectIdentsInExpr target ++ collectIdentsInExpr value
  | .returnStmt value _ => collectIdentsInExprOpt value
  | .ifStmt condition thenBlock elifs elseBlock _ =>
    collectIdentsInExpr condition ++ (collectIdentsInBlock thenBlock ++
      (collectIdentsInElifs elifs ++ collectIdentsInBlockOpt elseBlock))
  | .forStmt _ _ iterable body _ => collectIdentsInExpr iterable ++ collectIdentsInBlock body
  | .whileStmt condition body _ => collectIdentsInExpr condition ++ collectIdentsInBlock body
  | .exprStmt e _ => collectIdentsInExpr e
  | .spawn e _ => collectIdentsInExpr e
  | .throwStmt e _ => collectIdentsInExpr e
  | .select branches timeout _ =>
    collectIdentsInBranches branches ++ collectIdentsInTimeout timeout
  | .tryCatch tryBlock _ catchBlock _ =>
    collectIdentsInBlock tryBlock ++ collectIdentsInBlock catchBlock
  | .denyBlock _ body _ => collectIdentsInBlock body
  | .breakStmt _ => []
  | .continueStmt _ => []

end

mutual

def collectIdentsInDecl : Decl → List String
  | .function _ _ _ _ (some body) .. => collectIdentsInBlock body
  | .impl _ _ _ methods _ _ => collectIdentsInDecls methods
  | .trait _ _ methods _ _ _ => collectIdentsInDecls methods
  | .const _ _ value .. => collectIdentsInExpr value
  | _ => []

def collectIdentsInDecls : List Decl → List String
  | [] => []
  | d :: ds => collectIdentsInDecl d ++ collectIdentsInDecls ds

end

/-! ### Names that are bound -/

mutual

def collectBoundInPattern : Pattern → List String
  | .ident name _ _ => [name]
  | .tuple elements _ => collectBoundInPatterns elements
  | .struct _ fields _ => collectBoundInFieldPatterns fields
  | .enum _ _ fields _ => collectBoundInPatterns fields
  | .or patterns _ => collectBoundInPatterns patterns
  | .wildcard _ => []
  | .literal _ _ => []

def collectBoundInPatterns : List Pattern → List String
  | [] => []
  | p :: ps => collectBoundInPattern p ++ collectBoundInPatterns ps

def collectBoundInFieldPatterns : List (String × Pattern) → List String
  | [] => []
  | (_, p) :: ps => collectBoundInPattern p ++ collectBoundInFieldPatterns ps

end

/-- What a statement binds for the rest of its block. -/
def boundByStmt : Stmt → List String
  | .letStmt name _ _ _ pattern _ => name :: (pattern.map collectBoundInPattern).getD []
  | _ => []

def paramName : Param → String
  | .mk name _ _ _ => name

/-! ### Renaming -/

abbrev Renaming := List (String × String)

/-- The name under which a function is known after the renaming. -/
def Renaming.apply (map : Renaming) (name : String) : String :=
  (map.lookup name).getD name

section Rename

variable (map : Renaming)

mutual

def renameExprScoped (shadowed : List String) : Expr → Expr
  | .identifier name span =>
    .identifier (if name ∈ shadowed then name else map.apply name) span
  | .fieldAccess object field span => .fieldAccess (renameExprScoped shadowed object) field span
  | .indexAccess object index span =>
    .indexAccess (renameExprScoped shadowed object) (renameExprScoped shadowed index) span
  | .binaryOp op left right span =>
    .binaryOp op (renameExprScoped shadowed left) (renameExprScoped shadowed right) span
  | .unaryOp op operand span => .unaryOp op (renameExprScoped shadowed operand) span
  | .fnCall callee args span =>
    .fnCall (renameExprScoped shadowed callee) (renameExprsScoped shadowed args) span
  | .methodCall object method args span =>
    .methodCall (renameExprScoped shadowed object) method (renameExprsScoped shadowed args) span
  | .staticMethodCall typeName method args span =>
    .staticMethodCall typeName method (renameExprsScoped shadowed args) span
  | .arrayLiteral elements span => .arrayLiteral (renameExprsScoped shadowed elements) span
  | .tupleLiteral elements span => .tupleLiteral (renameExprsScoped shadowed elements) span
  | .mapLiteral entries span => .mapLiteral (renameEntriesScoped shadowed entries) span
  | .structLiteral name fields span =>
    .structLiteral name (renameFieldsScoped shadowed fields) span
  | .lambda params retTy body span =>
    .lambda params retTy (renameExprScoped (params.map paramName ++ shadowed) body) span
  | .ifExpr condition thenBranch elseBranch span =>
    .ifExpr (renameExprScoped shadowed condition) (renameBlockScoped shadowed thenBranch)
      (renameBlockOptScoped shadowed elseBranch) span
  | .matchExpr subject arms span =>
    .matchExpr (renameExprScoped shadowed subject) (renameArmsScoped shadowed arms) span
  | .rangeExpr start stop inclusive span =>
    .rangeExpr (renameExprOptScoped shadowed start) (renameExprOptScoped shadowed stop) inclusive
      span
  | .pipeExpr left right span =>
    .pipeExpr (renameExprScoped shadowed left) (renameExprScoped shadowed right) span
  | .borrow inner mutable span => .borrow (renameExprScoped shadowed inner) mutable span
  | .deref inner span => .deref (renameExprScoped shadowed inner) span
  | .sharedExpr inner span => .sharedExpr (renameExprScoped shadowed inner) span
  | .moveExpr inner span => .moveExpr (renameExprScoped shadowed inner) span
  | .weakExpr inner span => .weakExpr (renameExprScoped shadowed inner) span
  | .cast inner ty span => .cast (renameExprScoped shadowed inner) ty span
  | .await value span => .await (renameExprScoped shadowed value) span
  | .block block span => .block (renameBlockScoped shadowed block) span
  | .comptimeBlock body span => .comptimeBlock (renameBlockScoped shadowed body) span
  | .quantumBlock body span => .quantumBlock (renameBlockScoped shadowed body) span
  | .interpolatedString parts span => .interpolatedString (renamePartsScoped shadowed parts) span
  | e => e

def renameExprOptScoped (shadowed : List String) : Option Expr → Option Expr
  | none => none
  | some e => some (renameExprScoped shadowed e)

def renameExprsScoped (shadowed : List String) : List Expr → List Expr
  | [] => []
  | e :: es => renameExprScoped shadowed e :: renameExprsScoped shadowed es

def renamePartsScoped (shadowed : List String) : List StringPart → List StringPart
  | [] => []
  | .literal text :: parts => .literal text :: renamePartsScoped shadowed parts
  | .expr e :: parts => .expr (renameExprScoped shadowed e) :: renamePartsScoped shadowed parts

def renameEntriesScoped (shadowed : List String) : List (Expr × Expr) → List (Expr × Expr)
  | [] => []
  | (k, v) :: entries =>
    (renameExprScoped shadowed k, renameExprScoped shadowed v) ::
      renameEntriesScoped shadowed entries

def renameFieldsScoped (shadowed : List String) : List (String × Expr) → List (String × Expr)
  | [] => []
  | (f, v) :: fields => (f, renameExprScoped shadowed v) :: renameFieldsScoped shadowed fields

def renameArmsScoped (shadowed : List String) : List MatchArm → List MatchArm
  | [] => []
  | .mk pattern guard body span :: arms =>
    .mk pattern (renameExprOptScoped (collectBoundInPattern pattern ++ shadowed) guard)
        (renameExprScoped (collectBoundInPattern pattern ++ shadowed) body) span ::
      renameArmsScoped shadowed arms

def renameBlockScoped (shadowed : List String) : Block → Block
  | .mk stmts span => .mk (renameStmtsScoped shadowed stmts) span

def renameBlockOptScoped (shadowed : List String) : Option Block → Option Block
  | none => none
  | some b => some (renameBlockScoped shadowed b)

/-- A `let` shadows for the rest of its block. -/
def renameStmtsScoped (cur : List String) : List Stmt → List Stmt
  | [] => []
  | s :: stmts => renameStmtScoped cur s :: renameStmtsScoped (boundByStmt s ++ cur) stmts

def renameElifsScoped (shadowed : List String) : List (Expr × Block) → List (Expr × Block)
  | [] => []
  | (c, b) :: elifs =>
    (renameExprScoped shadowed c, renameBlockScoped shadowed b) :: renameElifsScoped shadowed elifs

def renameBranchesScoped (shadowed : List String) : List SelectBranch → List SelectBranch
  | [] => []
  | .mk pattern channel body span :: branches =>
    .mk pattern (renameExprScoped shadowed channel) (renameBlockScoped shadowed body) span ::
      renameBranchesScoped shadowed branches

def renameTimeoutScoped (shadowed : List String) : Option SelectTimeout → Option SelectTimeout
  | none => none
  | some (.mk durationMs body span) =>
    some (.mk (renameExprScoped shadowed durationMs) (renameBlockScoped shadowed body) span)

def renameStmtScoped (shadowed : List String) : Stmt → Stmt
  | .letStmt name mutable ty value pattern span =>
    .letStmt name mutable ty (renameExprOptScoped shadowed value) pattern span
  | .assign target op value span =>
    .assign (renameExprScoped shadowed target) op (renameExprScoped shadowed value) span
  | .returnStmt value span => .returnStmt (renameExprOptScoped shadowed value) span
  | .ifStmt condition thenBlock elifs elseBlock span =>
    .ifStmt (renameExprScoped shadowed condition) (renameBlockScoped shadowed thenBlock)
      (renameElifsScoped shadowed elifs) (renameBlockOptScoped shadowed elseBlock) span
  | .forStmt parallel pattern iterable body span =>
    .forStmt parallel pattern (renameExprScoped shadowed iterable)
      (renameBlockScoped (collectBoundInPattern pattern ++ shadowed) body) span
  | .whileStmt condition body span =>
    .whileStmt (renameExprScoped shadowed condition) (renameBlockScoped shadowed body) span
  | .exprStmt e span => .exprStmt (renameExprScoped shadowed e) span
  | .spawn e span => .spawn (renameExprScoped shadowed e) span
  | .throwStmt e span => .throwStmt (renameExprScoped shadowed e) span
  | .select branches timeout span =>
    .select (renameBranchesScoped shadowed branches) (renameTimeoutScoped shadowed timeout) span
  | .tryCatch tryBlock catchName catchBlock span =>
    .tryCatch (renameBlockScoped shadowed tryBlock) catchName
      (renameBlockScoped (catchName :: shadowed) catchBlock) span
  | .denyBlock denied body span => .denyBlock denied (renameBlockScoped shadowed body) span
  | .breakStmt span => .breakStmt span
  | .continueStmt span => .continueStmt span

end

def renameInFnBody (params : List Param) (body : Block) : Block :=
  renameBlockScoped map (params.map paramName) body

/-- A method keeps its name. -/
def renameMethod : Decl → Decl
  | .function name generics params retTy (some body) isPublic isAsync annotations docs span =>
    .function name generics params retTy (some (renameInFnBody map params body)) isPublic isAsync
      annotations docs span
  | m => m

def renameIdentsInDecl : Decl → Decl
  | .function name generics params retTy body isPublic isAsync annotations docs span =>
    .function (map.apply name) generics params retTy (body.map (renameInFnBody map params)) isPublic
      isAsync annotations docs span
  | .impl target traitName generics methods docs span =>
    .impl target traitName generics (methods.map (renameMethod map)) docs span
  | .trait name generics methods isPublic docs span =>
    .trait name generics (methods.map (renameMethod map)) isPublic docs span
  | .const name ty value isPublic mutable docs span =>
    .const name ty (renameExprScoped map [] value) isPublic mutable docs span
  | d => d

end Rename

end Kryos.Driver

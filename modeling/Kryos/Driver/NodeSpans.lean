import Kryos.Driver.SelectImport

/-!
# Nodes that are keyed by their spans

The type checker keeps what it finds out about lambdas and about `let` statements in tables keyed by
the span of the node. This is a walk over these nodes, in the order of the text. A merge renames
identifiers only, so it leaves the nodes and their spans as they are.
-/

namespace Kryos.Driver

open Kryos.Ast

inductive NodeKind where
  | lambda
  | letStmt
deriving DecidableEq

/-- A node that has an entry in a table. -/
structure KeyedNode where
  kind : NodeKind
  span : Span
deriving DecidableEq

mutual

def keyedInExpr : Expr → List KeyedNode
  | .fieldAccess object _ _ => keyedInExpr object
  | .indexAccess object index _ => keyedInExpr object ++ keyedInExpr index
  | .binaryOp _ left right _ => keyedInExpr left ++ keyedInExpr right
  | .unaryOp _ operand _ => keyedInExpr operand
  | .fnCall callee args _ => keyedInExpr callee ++ keyedInExprs args
  | .methodCall object _ args _ => keyedInExpr object ++ keyedInExprs args
  | .staticMethodCall _ _ args _ => keyedInExprs args
  | .arrayLiteral elements _ => keyedInExprs elements
  | .tupleLiteral elements _ => keyedInExprs elements
  | .mapLiteral entries _ => keyedInEntries entries
  | .structLiteral _ fields _ => keyedInFields fields
  | .lambda params _ body span => ⟨.lambda, span⟩ :: (keyedInDefaults params ++ keyedInExpr body)
  | .ifExpr condition thenBranch elseBranch _ =>
    keyedInExpr condition ++ (keyedInBlock thenBranch ++ keyedInBlockOpt elseBranch)
  | .matchExpr subject arms _ => keyedInExpr subject ++ keyedInArms arms
  | .rangeExpr start stop _ _ => keyedInExprOpt start ++ keyedInExprOpt stop
  | .pipeExpr left right _ => keyedInExpr left ++ keyedInExpr right
  | .borrow inner _ _ => keyedInExpr inner
  | .deref inner _ => keyedInExpr inner
  | .sharedExpr inner _ => keyedInExpr inner
  | .moveExpr inner _ => keyedInExpr inner
  | .weakExpr inner _ => keyedInExpr inner
  | .cast inner _ _ => keyedInExpr inner
  | .await value _ => keyedInExpr value
  | .block block _ => keyedInBlock block
  | .comptimeBlock body _ => keyedInBlock body
  | .quantumBlock body _ => keyedInBlock body
  | .unsafeBlock body _ => keyedInBlock body
  | .interpolatedString parts _ => keyedInParts parts
  | .identifier .. | .intLiteral .. | .floatLiteral .. | .stringLiteral .. | .charLiteral ..
  | .boolLiteral .. | .noneLiteral .. => []

def keyedInExprOpt : Option Expr → List KeyedNode
  | none => []
  | some e => keyedInExpr e

def keyedInExprs : List Expr → List KeyedNode
  | [] => []
  | e :: es => keyedInExpr e ++ keyedInExprs es

def keyedInParts : List StringPart → List KeyedNode
  | [] => []
  | .literal _ :: parts => keyedInParts parts
  | .expr e :: parts => keyedInExpr e ++ keyedInParts parts

def keyedInEntries : List (Expr × Expr) → List KeyedNode
  | [] => []
  | (k, v) :: entries => keyedInExpr k ++ (keyedInExpr v ++ keyedInEntries entries)

def keyedInFields : List (String × Expr) → List KeyedNode
  | [] => []
  | (_, v) :: fields => keyedInExpr v ++ keyedInFields fields

def keyedInDefaults : List Param → List KeyedNode
  | [] => []
  | .mk _ _ default _ :: params => keyedInExprOpt default ++ keyedInDefaults params

def keyedInArms : List MatchArm → List KeyedNode
  | [] => []
  | .mk pattern guard body _ :: arms =>
    keyedInPattern pattern ++ (keyedInExprOpt guard ++ (keyedInExpr body ++ keyedInArms arms))

def keyedInPattern : Pattern → List KeyedNode
  | .literal e _ => keyedInExpr e
  | .tuple elements _ => keyedInPatterns elements
  | .struct _ fields _ => keyedInFieldPatterns fields
  | .enum _ _ fields _ => keyedInPatterns fields
  | .or patterns _ => keyedInPatterns patterns
  | .wildcard _ => []
  | .ident _ _ _ => []

def keyedInPatterns : List Pattern → List KeyedNode
  | [] => []
  | p :: ps => keyedInPattern p ++ keyedInPatterns ps

def keyedInFieldPatterns : List (String × Pattern) → List KeyedNode
  | [] => []
  | (_, p) :: ps => keyedInPattern p ++ keyedInFieldPatterns ps

def keyedInPatternOpt : Option Pattern → List KeyedNode
  | none => []
  | some p => keyedInPattern p

def keyedInBlock : Block → List KeyedNode
  | .mk stmts _ => keyedInStmts stmts

def keyedInBlockOpt : Option Block → List KeyedNode
  | none => []
  | some b => keyedInBlock b

def keyedInStmts : List Stmt → List KeyedNode
  | [] => []
  | s :: stmts => keyedInStmt s ++ keyedInStmts stmts

def keyedInElifs : List (Expr × Block) → List KeyedNode
  | [] => []
  | (c, b) :: elifs => keyedInExpr c ++ (keyedInBlock b ++ keyedInElifs elifs)

def keyedInBranches : List SelectBranch → List KeyedNode
  | [] => []
  | .mk _ channel body _ :: branches =>
    keyedInExpr channel ++ (keyedInBlock body ++ keyedInBranches branches)

def keyedInTimeout : Option SelectTimeout → List KeyedNode
  | none => []
  | some (.mk durationMs body _) => keyedInExpr durationMs ++ keyedInBlock body

def keyedInStmt : Stmt → List KeyedNode
  | .letStmt _ _ _ value pattern span =>
    ⟨.letStmt, span⟩ :: (keyedInExprOpt value ++ keyedInPatternOpt pattern)
  | .assign target _ value _ => keyedInExpr target ++ keyedInExpr value
  | .returnStmt value _ => keyedInExprOpt value
  | .ifStmt condition thenBlock elifs elseBlock _ =>
    keyedInExpr condition ++ (keyedInBlock thenBlock ++
      (keyedInElifs elifs ++ keyedInBlockOpt elseBlock))
  | .forStmt _ pattern iterable body _ =>
    keyedInPattern pattern ++ (keyedInExpr iterable ++ keyedInBlock body)
  | .whileStmt condition body _ => keyedInExpr condition ++ keyedInBlock body
  | .exprStmt e _ => keyedInExpr e
  | .spawn e _ => keyedInExpr e
  | .throwStmt e _ => keyedInExpr e
  | .select branches timeout _ => keyedInBranches branches ++ keyedInTimeout timeout
  | .tryCatch tryBlock _ catchBlock _ => keyedInBlock tryBlock ++ keyedInBlock catchBlock
  | .denyBlock _ body _ => keyedInBlock body
  | .breakStmt _ => []
  | .continueStmt _ => []

end

/-- A function, a method, or an item of an `extern` block. -/
def keyedInFunction : Decl → List KeyedNode
  | .function _ _ params _ body .. => keyedInDefaults params ++ keyedInBlockOpt body
  | _ => []

def keyedInStructFields (fields : List StructField) : List KeyedNode :=
  fields.flatMap fun f => keyedInExprOpt f.default

def keyedInDecl : Decl → List KeyedNode
  | .function name generics params retTy body isPublic isAsync annotations docs span =>
    keyedInFunction
      (.function name generics params retTy body isPublic isAsync annotations docs span)
  | .struct _ _ fields .. => keyedInStructFields fields
  | .trait _ _ methods .. => methods.flatMap keyedInFunction
  | .impl _ _ _ methods .. => methods.flatMap keyedInFunction
  | .actor _ stateFields handlers .. =>
    keyedInStructFields stateFields ++
      handlers.flatMap fun h => keyedInDefaults h.params ++ keyedInBlock h.body
  | .externBlock _ items .. => items.flatMap keyedInFunction
  | .const _ _ value .. => keyedInExpr value
  | .enum .. | .typeAlias .. | .importDecl .. => []

/-! ### Merging keeps the nodes -/

section Merge

variable (map : Renaming)

theorem append_congr {xs xs' ys ys' : List KeyedNode} (h : xs = xs') (h' : ys = ys') :
    xs ++ ys = xs' ++ ys' := by
  rw [h, h']

mutual

theorem keyed_expr (c : List String) :
    ∀ e, keyedInExpr (renameExprScoped map c e) = keyedInExpr e
  | .fieldAccess object _ _ => keyed_expr c object
  | .indexAccess object index _ => append_congr (keyed_expr c object) (keyed_expr c index)
  | .binaryOp _ left right _ | .pipeExpr left right _ =>
    append_congr (keyed_expr c left) (keyed_expr c right)
  | .unaryOp _ operand _ => keyed_expr c operand
  | .fnCall callee args _ => append_congr (keyed_expr c callee) (keyed_exprs c args)
  | .methodCall object _ args _ => append_congr (keyed_expr c object) (keyed_exprs c args)
  | .staticMethodCall _ _ args _ => keyed_exprs c args
  | .arrayLiteral elements _ | .tupleLiteral elements _ => keyed_exprs c elements
  | .mapLiteral entries _ => keyed_entries c entries
  | .structLiteral _ fields _ => keyed_fields c fields
  | .lambda params _ body _ =>
    congrArg (_ :: ·) (append_congr rfl (keyed_expr (params.map paramName ++ c) body))
  | .ifExpr condition thenBranch elseBranch _ =>
    append_congr (keyed_expr c condition)
      (append_congr (keyed_block c thenBranch) (keyed_blockOpt c elseBranch))
  | .matchExpr subject arms _ => append_congr (keyed_expr c subject) (keyed_arms c arms)
  | .rangeExpr start stop _ _ => append_congr (keyed_exprOpt c start) (keyed_exprOpt c stop)
  | .borrow inner _ _ | .deref inner _ | .sharedExpr inner _ | .moveExpr inner _ | .weakExpr inner _
  | .cast inner _ _ => keyed_expr c inner
  | .await value _ => keyed_expr c value
  | .block block _ => keyed_block c block
  | .comptimeBlock body _ | .quantumBlock body _ => keyed_block c body
  | .interpolatedString parts _ => keyed_parts c parts
  | .unsafeBlock .. | .identifier .. | .intLiteral .. | .floatLiteral .. | .stringLiteral ..
  | .charLiteral .. | .boolLiteral .. | .noneLiteral .. => rfl

theorem keyed_exprOpt (c : List String) :
    ∀ e, keyedInExprOpt (renameExprOptScoped map c e) = keyedInExprOpt e
  | none => rfl
  | some e => keyed_expr c e

theorem keyed_exprs (c : List String) :
    ∀ es, keyedInExprs (renameExprsScoped map c es) = keyedInExprs es
  | [] => rfl
  | e :: es => append_congr (keyed_expr c e) (keyed_exprs c es)

theorem keyed_parts (c : List String) :
    ∀ ps, keyedInParts (renamePartsScoped map c ps) = keyedInParts ps
  | [] => rfl
  | .literal _ :: parts => keyed_parts c parts
  | .expr e :: parts => append_congr (keyed_expr c e) (keyed_parts c parts)

theorem keyed_entries (c : List String) :
    ∀ es, keyedInEntries (renameEntriesScoped map c es) = keyedInEntries es
  | [] => rfl
  | (k, v) :: entries =>
    append_congr (keyed_expr c k) (append_congr (keyed_expr c v) (keyed_entries c entries))

theorem keyed_fields (c : List String) :
    ∀ fs, keyedInFields (renameFieldsScoped map c fs) = keyedInFields fs
  | [] => rfl
  | (_, v) :: fields => append_congr (keyed_expr c v) (keyed_fields c fields)

theorem keyed_arms (c : List String) :
    ∀ arms, keyedInArms (renameArmsScoped map c arms) = keyedInArms arms
  | [] => rfl
  | .mk pattern guard body _ :: arms =>
    append_congr rfl (append_congr (keyed_exprOpt (collectBoundInPattern pattern ++ c) guard)
      (append_congr (keyed_expr (collectBoundInPattern pattern ++ c) body) (keyed_arms c arms)))

theorem keyed_block (c : List String) :
    ∀ b, keyedInBlock (renameBlockScoped map c b) = keyedInBlock b
  | .mk stmts _ => keyed_stmts c stmts

theorem keyed_blockOpt (c : List String) :
    ∀ b, keyedInBlockOpt (renameBlockOptScoped map c b) = keyedInBlockOpt b
  | none => rfl
  | some b => keyed_block c b

theorem keyed_stmts (c : List String) :
    ∀ ss, keyedInStmts (renameStmtsScoped map c ss) = keyedInStmts ss
  | [] => rfl
  | s :: stmts => append_congr (keyed_stmt c s) (keyed_stmts (boundByStmt s ++ c) stmts)

theorem keyed_elifs (c : List String) :
    ∀ es, keyedInElifs (renameElifsScoped map c es) = keyedInElifs es
  | [] => rfl
  | (cond, b) :: elifs =>
    append_congr (keyed_expr c cond) (append_congr (keyed_block c b) (keyed_elifs c elifs))

theorem keyed_branches (c : List String) :
    ∀ bs, keyedInBranches (renameBranchesScoped map c bs) = keyedInBranches bs
  | [] => rfl
  | .mk _ channel body _ :: branches =>
    append_congr (keyed_expr c channel)
      (append_congr (keyed_block c body) (keyed_branches c branches))

theorem keyed_timeout (c : List String) :
    ∀ t, keyedInTimeout (renameTimeoutScoped map c t) = keyedInTimeout t
  | none => rfl
  | some (.mk durationMs body _) => append_congr (keyed_expr c durationMs) (keyed_block c body)

theorem keyed_stmt (c : List String) :
    ∀ s, keyedInStmt (renameStmtScoped map c s) = keyedInStmt s
  | .letStmt _ _ _ value _ _ =>
    congrArg (_ :: ·) (append_congr (keyed_exprOpt c value) rfl)
  | .assign target _ value _ => append_congr (keyed_expr c target) (keyed_expr c value)
  | .returnStmt value _ => keyed_exprOpt c value
  | .ifStmt condition thenBlock elifs elseBlock _ =>
    append_congr (keyed_expr c condition) (append_congr (keyed_block c thenBlock)
      (append_congr (keyed_elifs c elifs) (keyed_blockOpt c elseBlock)))
  | .forStmt _ pattern iterable body _ =>
    append_congr rfl (append_congr (keyed_expr c iterable)
      (keyed_block (collectBoundInPattern pattern ++ c) body))
  | .whileStmt condition body _ => append_congr (keyed_expr c condition) (keyed_block c body)
  | .exprStmt e _ | .spawn e _ | .throwStmt e _ => keyed_expr c e
  | .select branches timeout _ => append_congr (keyed_branches c branches) (keyed_timeout c timeout)
  | .tryCatch tryBlock catchName catchBlock _ =>
    append_congr (keyed_block c tryBlock) (keyed_block (catchName :: c) catchBlock)
  | .denyBlock _ body _ => keyed_block c body
  | .breakStmt _ | .continueStmt _ => rfl

end

theorem keyed_method (d : Decl) : keyedInFunction (renameMethod map d) = keyedInFunction d := by
  cases d with
  | function name generics params retTy body =>
    cases body with
    | none => rfl
    | some body => exact append_congr rfl (keyed_block map (params.map paramName) body)
  | _ => rfl

theorem keyed_methods (methods : List Decl) :
    (methods.map (renameMethod map)).flatMap keyedInFunction = methods.flatMap keyedInFunction := by
  rw [List.flatMap_map]
  exact congrArg (methods.flatMap ·) (funext (keyed_method map))

theorem keyedInDecl_rename (d : Decl) :
    keyedInDecl (renameIdentsInDecl map d) = keyedInDecl d := by
  cases d with
  | function name generics params retTy body =>
    cases body with
    | none => rfl
    | some body => exact append_congr rfl (keyed_block map (params.map paramName) body)
  | impl target traitName generics methods | trait name generics methods =>
    exact keyed_methods map methods
  | const name ty value => exact keyed_expr map [] value
  | _ => rfl

theorem keyedInDecl_mergeDecl (d : Decl) : keyedInDecl (mergeDecl map d) = keyedInDecl d := by
  rw [mergeDecl]
  split
  · rfl
  · exact keyedInDecl_rename map d

end Merge

end Kryos.Driver

import Mathlib
import Kryos.Driver.Idents

/-!
# Occurrences of identifiers

Every identifier of a declaration, in the order of the text, with the names that are bound where it
stands. Each construct of the language binds as the later passes of the compiler take it to bind.

The two walks of the import resolution do not enter `unsafe` blocks, default values, patterns and
actors, and renaming does not take the variable of a `select` branch for a local. What they do is
said exactly in terms of the occurrences: `visited_mem_collect` and `occursDecl_rename`.
-/

namespace Kryos.Driver

open Kryos.Ast

/-- The names bound at a place. Those of `select` branches are kept apart. -/
structure Scope where
  known : List String
  select : List String
deriving DecidableEq

def Scope.bind (c : Scope) (names : List String) : Scope := { c with known := names ++ c.known }

def Scope.bindSelect (c : Scope) (name : String) : Scope := { c with select := name :: c.select }

structure Occurrence where
  name : String
  scope : Scope
  visited : Bool
deriving DecidableEq

namespace Occurrence

/-- The identifier is bound by a local, a parameter, a pattern, or by `catch`, `select` or a
lambda. -/
def IsLocal (o : Occurrence) : Prop := o.name ∈ o.scope.known ∨ o.name ∈ o.scope.select

instance (o : Occurrence) : Decidable o.IsLocal := inferInstanceAs (Decidable (_ ∨ _))

def unvisited (o : Occurrence) : Occurrence := { o with visited := false }

/-- What the renaming makes of an occurrence. -/
def rename (map : Renaming) (o : Occurrence) : Occurrence :=
  if o.visited ∧ o.name ∉ o.scope.known then { o with name := map.apply o.name } else o

theorem rename_unvisited (map : Renaming) (o : Occurrence) : o.unvisited.rename map = o.unvisited := by
  rw [rename, if_neg]
  rintro ⟨h, _⟩
  cases h

end Occurrence

def skipped (os : List Occurrence) : List Occurrence := os.map Occurrence.unvisited

theorem map_rename_skipped (map : Renaming) (os : List Occurrence) :
    (skipped os).map (Occurrence.rename map) = skipped os := by
  rw [skipped, List.map_map]
  refine List.map_congr_left fun o _ => ?_
  exact o.rename_unvisited map

mutual

def occursExpr (c : Scope) : Expr → List Occurrence
  | .identifier name _ => [⟨name, c, true⟩]
  | .fieldAccess object _ _ => occursExpr c object
  | .indexAccess object index _ => occursExpr c object ++ occursExpr c index
  | .binaryOp _ left right _ => occursExpr c left ++ occursExpr c right
  | .unaryOp _ operand _ => occursExpr c operand
  | .fnCall callee args _ => occursExpr c callee ++ occursExprs c args
  | .methodCall object _ args _ => occursExpr c object ++ occursExprs c args
  | .staticMethodCall _ _ args _ => occursExprs c args
  | .arrayLiteral elements _ => occursExprs c elements
  | .tupleLiteral elements _ => occursExprs c elements
  | .mapLiteral entries _ => occursEntries c entries
  | .structLiteral _ fields _ => occursFields c fields
  | .lambda params _ body _ =>
    skipped (occursDefaults c params) ++ occursExpr (c.bind (params.map paramName)) body
  | .ifExpr condition thenBranch elseBranch _ =>
    occursExpr c condition ++ (occursBlock c thenBranch ++ occursBlockOpt c elseBranch)
  | .matchExpr subject arms _ => occursExpr c subject ++ occursArms c arms
  | .rangeExpr start stop _ _ => occursExprOpt c start ++ occursExprOpt c stop
  | .pipeExpr left right _ => occursExpr c left ++ occursExpr c right
  | .borrow inner _ _ => occursExpr c inner
  | .deref inner _ => occursExpr c inner
  | .sharedExpr inner _ => occursExpr c inner
  | .moveExpr inner _ => occursExpr c inner
  | .weakExpr inner _ => occursExpr c inner
  | .cast inner _ _ => occursExpr c inner
  | .await value _ => occursExpr c value
  | .block block _ => occursBlock c block
  | .comptimeBlock body _ => occursBlock c body
  | .quantumBlock body _ => occursBlock c body
  | .unsafeBlock body _ => skipped (occursBlock c body)
  | .interpolatedString parts _ => occursParts c parts
  | .intLiteral .. | .floatLiteral .. | .stringLiteral .. | .charLiteral .. | .boolLiteral ..
  | .noneLiteral .. => []

def occursExprOpt (c : Scope) : Option Expr → List Occurrence
  | none => []
  | some e => occursExpr c e

def occursExprs (c : Scope) : List Expr → List Occurrence
  | [] => []
  | e :: es => occursExpr c e ++ occursExprs c es

def occursParts (c : Scope) : List StringPart → List Occurrence
  | [] => []
  | .literal _ :: parts => occursParts c parts
  | .expr e :: parts => occursExpr c e ++ occursParts c parts

def occursEntries (c : Scope) : List (Expr × Expr) → List Occurrence
  | [] => []
  | (k, v) :: entries => occursExpr c k ++ (occursExpr c v ++ occursEntries c entries)

def occursFields (c : Scope) : List (String × Expr) → List Occurrence
  | [] => []
  | (_, v) :: fields => occursExpr c v ++ occursFields c fields

def occursDefaults (c : Scope) : List Param → List Occurrence
  | [] => []
  | .mk _ _ default _ :: params => occursExprOpt c default ++ occursDefaults c params

def occursArms (c : Scope) : List MatchArm → List Occurrence
  | [] => []
  | .mk pattern guard body _ :: arms =>
    skipped (occursPattern c pattern) ++
      (occursExprOpt (c.bind (collectBoundInPattern pattern)) guard ++
        (occursExpr (c.bind (collectBoundInPattern pattern)) body ++ occursArms c arms))

def occursPattern (c : Scope) : Pattern → List Occurrence
  | .literal e _ => occursExpr c e
  | .tuple elements _ => occursPatterns c elements
  | .struct _ fields _ => occursFieldPatterns c fields
  | .enum _ _ fields _ => occursPatterns c fields
  | .or patterns _ => occursPatterns c patterns
  | .wildcard _ => []
  | .ident _ _ _ => []

def occursPatterns (c : Scope) : List Pattern → List Occurrence
  | [] => []
  | p :: ps => occursPattern c p ++ occursPatterns c ps

def occursFieldPatterns (c : Scope) : List (String × Pattern) → List Occurrence
  | [] => []
  | (_, p) :: ps => occursPattern c p ++ occursFieldPatterns c ps

def occursPatternOpt (c : Scope) : Option Pattern → List Occurrence
  | none => []
  | some p => occursPattern c p

def occursBlock (c : Scope) : Block → List Occurrence
  | .mk stmts _ => occursStmts c stmts

def occursBlockOpt (c : Scope) : Option Block → List Occurrence
  | none => []
  | some b => occursBlock c b

def occursStmts (c : Scope) : List Stmt → List Occurrence
  | [] => []
  | s :: stmts => occursStmt c s ++ occursStmts (c.bind (boundByStmt s)) stmts

def occursElifs (c : Scope) : List (Expr × Block) → List Occurrence
  | [] => []
  | (cond, b) :: elifs => occursExpr c cond ++ (occursBlock c b ++ occursElifs c elifs)

def occursBranches (c : Scope) : List SelectBranch → List Occurrence
  | [] => []
  | .mk pattern channel body _ :: branches =>
    occursExpr c channel ++ (occursBlock (c.bindSelect pattern) body ++ occursBranches c branches)

def occursTimeout (c : Scope) : Option SelectTimeout → List Occurrence
  | none => []
  | some (.mk durationMs body _) => occursExpr c durationMs ++ occursBlock c body

def occursStmt (c : Scope) : Stmt → List Occurrence
  | .letStmt _ _ _ value pattern _ => occursExprOpt c value ++ skipped (occursPatternOpt c pattern)
  | .assign target _ value _ => occursExpr c target ++ occursExpr c value
  | .returnStmt value _ => occursExprOpt c value
  | .ifStmt condition thenBlock elifs elseBlock _ =>
    occursExpr c condition ++ (occursBlock c thenBlock ++
      (occursElifs c elifs ++ occursBlockOpt c elseBlock))
  | .forStmt _ pattern iterable body _ =>
    skipped (occursPattern c pattern) ++
      (occursExpr c iterable ++ occursBlock (c.bind (collectBoundInPattern pattern)) body)
  | .whileStmt condition body _ => occursExpr c condition ++ occursBlock c body
  | .exprStmt e _ => occursExpr c e
  | .spawn e _ => occursExpr c e
  | .throwStmt e _ => occursExpr c e
  | .select branches timeout _ => occursBranches c branches ++ occursTimeout c timeout
  | .tryCatch tryBlock catchName catchBlock _ =>
    occursBlock c tryBlock ++ occursBlock (c.bind [catchName]) catchBlock
  | .denyBlock _ body _ => occursBlock c body
  | .breakStmt _ => []
  | .continueStmt _ => []

end

/-- Nothing is bound at the top of a module. -/
def topLevel : Scope := ⟨[], []⟩

def occursFunction (params : List Param) (body : Option Block) : List Occurrence :=
  skipped (occursDefaults topLevel params) ++
    occursBlockOpt (topLevel.bind (params.map paramName)) body

/-- The methods of a trait or an impl, and the items of an `extern` block, are functions. -/
def occursMethod : Decl → List Occurrence
  | .function _ _ params _ body .. => occursFunction params body
  | _ => []

def occursStructFields (fields : List StructField) : List Occurrence :=
  fields.flatMap fun f => occursExprOpt topLevel f.default

/-- A handler can name the state of its actor, and the actor itself. -/
def occursHandler (stateFields : List StructField) (h : MessageHandler) : List Occurrence :=
  occursDefaults topLevel h.params ++
    occursBlock (topLevel.bind
      (h.params.map paramName ++ stateFields.map StructField.name ++ ["self"])) h.body

def occursDecl : Decl → List Occurrence
  | .function _ _ params _ body .. => occursFunction params body
  | .struct _ _ fields .. => skipped (occursStructFields fields)
  | .trait _ _ methods .. => methods.flatMap occursMethod
  | .impl _ _ _ methods .. => methods.flatMap occursMethod
  | .actor _ stateFields handlers .. =>
    skipped (occursStructFields stateFields ++ handlers.flatMap (occursHandler stateFields))
  | .externBlock _ items .. => skipped (items.flatMap occursMethod)
  | .const _ _ value .. => occursExpr topLevel value
  | .enum .. | .typeAlias .. | .importDecl .. => []

/-! ### What is collected, and what is renamed -/

def visitedNames (os : List Occurrence) : List String :=
  (os.filter (·.visited)).map Occurrence.name

theorem visitedNames_skipped (os : List Occurrence) : visitedNames (skipped os) = [] := by
  rw [visitedNames, skipped, List.filter_eq_nil_iff.mpr, List.map_nil]
  intro o ho
  obtain ⟨_, _, rfl⟩ := List.mem_map.mp ho
  exact Bool.false_ne_true

section Walks

variable {map : Renaming}

/-- What the two walks make of the occurrences `os` of a part: the names in visited places are
collected, and the occurrences of the renamed part are `os'`. -/
structure Walked (map : Renaming) (os : List Occurrence) (names : List String)
    (os' : List Occurrence) : Prop where
  collected : visitedNames os ⊆ names
  renamed : os' = os.map (Occurrence.rename map)

namespace Walked

variable {os₁ os₂ os₁' os₂' : List Occurrence} {xs ys : List String}

theorem nil (xs : List String) : Walked map [] xs [] := ⟨List.nil_subset _, rfl⟩

theorem skip (os : List Occurrence) (xs : List String) :
    Walked map (skipped os) xs (skipped os) where
  collected := by
    rw [visitedNames_skipped]
    exact List.nil_subset _
  renamed := (map_rename_skipped map os).symm

theorem append (h₁ : Walked map os₁ xs os₁') (h₂ : Walked map os₂ ys os₂') :
    Walked map (os₁ ++ os₂) (xs ++ ys) (os₁' ++ os₂') where
  collected := by
    rw [visitedNames, List.filter_append, List.map_append]
    exact List.append_subset.mpr
      ⟨List.Subset.trans h₁.collected (List.subset_append_left _ _),
        List.Subset.trans h₂.collected (List.subset_append_right _ _)⟩
  renamed := by rw [List.map_append, h₁.renamed, h₂.renamed]

theorem skip_append {os : List Occurrence} (h : Walked map os₁ xs os₁') :
    Walked map (skipped os ++ os₁) xs (skipped os ++ os₁') := (skip os []).append h

theorem append_skip {os : List Occurrence} (h : Walked map os₁ xs os₁') :
    Walked map (os₁ ++ skipped os) xs (os₁' ++ skipped os) := by
  have hall := h.append (skip os [])
  rwa [List.append_nil] at hall

theorem cons (x : String) (h : Walked map os₁ xs os₁') : Walked map os₁ (x :: xs) os₁' :=
  ⟨List.Subset.trans h.collected (List.subset_cons_self _ _), h.renamed⟩

end Walked

/-- A statement binds what it bound before. -/
theorem boundByStmt_rename (shadowed : List String) (s : Stmt) :
    boundByStmt (renameStmtScoped map shadowed s) = boundByStmt s := by
  cases s <;> rfl

mutual

theorem walked_expr (c : Scope) : ∀ e, Walked map (occursExpr c e) (collectIdentsInExpr e)
    (occursExpr c (renameExprScoped map c.known e))
  | .identifier name _ => by
    refine ⟨List.Subset.refl _, ?_⟩
    rw [renameExprScoped, occursExpr, occursExpr, List.map_singleton, Occurrence.rename]
    by_cases hname : name ∈ c.known
    · rw [if_pos hname, if_neg (fun h => h.2 hname)]
    · rw [if_neg hname, if_pos ⟨rfl, hname⟩]
  | .fieldAccess object _ _ => walked_expr c object
  | .indexAccess object index _ => (walked_expr c object).append (walked_expr c index)
  | .binaryOp _ left right _ | .pipeExpr left right _ =>
    (walked_expr c left).append (walked_expr c right)
  | .unaryOp _ operand _ => walked_expr c operand
  | .fnCall callee args _ => (walked_expr c callee).append (walked_exprs c args)
  | .methodCall object _ args _ => (walked_expr c object).append (walked_exprs c args)
  | .staticMethodCall typeName _ args _ => (walked_exprs c args).cons typeName
  | .arrayLiteral elements _ | .tupleLiteral elements _ => walked_exprs c elements
  | .mapLiteral entries _ => walked_entries c entries
  | .structLiteral name fields _ => (walked_fields c fields).cons name
  | .lambda params _ body _ => (walked_expr (c.bind (params.map paramName)) body).skip_append
  | .ifExpr condition thenBranch elseBranch _ =>
    (walked_expr c condition).append
      ((walked_block c thenBranch).append (walked_blockOpt c elseBranch))
  | .matchExpr subject arms _ => (walked_expr c subject).append (walked_arms c arms)
  | .rangeExpr start stop _ _ => (walked_exprOpt c start).append (walked_exprOpt c stop)
  | .borrow inner _ _ | .deref inner _ | .sharedExpr inner _ | .moveExpr inner _ | .weakExpr inner _
  | .cast inner _ _ => walked_expr c inner
  | .await value _ => walked_expr c value
  | .block block _ => walked_block c block
  | .comptimeBlock body _ | .quantumBlock body _ => walked_block c body
  | .unsafeBlock body _ => .skip (occursBlock c body) []
  | .interpolatedString parts _ => walked_parts c parts
  | .intLiteral .. | .floatLiteral .. | .stringLiteral .. | .charLiteral .. | .boolLiteral ..
  | .noneLiteral .. => .nil []

theorem walked_exprOpt (c : Scope) : ∀ e, Walked map (occursExprOpt c e) (collectIdentsInExprOpt e)
    (occursExprOpt c (renameExprOptScoped map c.known e))
  | none => .nil []
  | some e => walked_expr c e

theorem walked_exprs (c : Scope) : ∀ es, Walked map (occursExprs c es) (collectIdentsInExprs es)
    (occursExprs c (renameExprsScoped map c.known es))
  | [] => .nil []
  | e :: es => (walked_expr c e).append (walked_exprs c es)

theorem walked_parts (c : Scope) : ∀ ps, Walked map (occursParts c ps) (collectIdentsInParts ps)
    (occursParts c (renamePartsScoped map c.known ps))
  | [] => .nil []
  | .literal _ :: parts => walked_parts c parts
  | .expr e :: parts => (walked_expr c e).append (walked_parts c parts)

theorem walked_entries (c : Scope) : ∀ es,
    Walked map (occursEntries c es) (collectIdentsInEntries es)
      (occursEntries c (renameEntriesScoped map c.known es))
  | [] => .nil []
  | (k, v) :: entries =>
    (walked_expr c k).append ((walked_expr c v).append (walked_entries c entries))

theorem walked_fields (c : Scope) : ∀ fs, Walked map (occursFields c fs) (collectIdentsInFields fs)
    (occursFields c (renameFieldsScoped map c.known fs))
  | [] => .nil []
  | (_, v) :: fields => (walked_expr c v).append (walked_fields c fields)

theorem walked_arms (c : Scope) : ∀ arms, Walked map (occursArms c arms) (collectIdentsInArms arms)
    (occursArms c (renameArmsScoped map c.known arms))
  | [] => .nil []
  | .mk pattern guard body _ :: arms =>
    ((walked_exprOpt (c.bind (collectBoundInPattern pattern)) guard).append
      ((walked_expr (c.bind (collectBoundInPattern pattern)) body).append
        (walked_arms c arms))).skip_append

theorem walked_block (c : Scope) : ∀ b, Walked map (occursBlock c b) (collectIdentsInBlock b)
    (occursBlock c (renameBlockScoped map c.known b))
  | .mk stmts _ => walked_stmts c stmts

theorem walked_blockOpt (c : Scope) : ∀ b,
    Walked map (occursBlockOpt c b) (collectIdentsInBlockOpt b)
      (occursBlockOpt c (renameBlockOptScoped map c.known b))
  | none => .nil []
  | some b => walked_block c b

theorem walked_stmts (c : Scope) : ∀ ss, Walked map (occursStmts c ss) (collectIdentsInStmts ss)
    (occursStmts c (renameStmtsScoped map c.known ss))
  | [] => .nil []
  | s :: stmts => by
    rw [renameStmtsScoped, occursStmts, occursStmts, boundByStmt_rename]
    exact (walked_stmt c s).append (walked_stmts (c.bind (boundByStmt s)) stmts)

theorem walked_elifs (c : Scope) : ∀ es, Walked map (occursElifs c es) (collectIdentsInElifs es)
    (occursElifs c (renameElifsScoped map c.known es))
  | [] => .nil []
  | (cond, b) :: elifs =>
    (walked_expr c cond).append ((walked_block c b).append (walked_elifs c elifs))

theorem walked_branches (c : Scope) : ∀ bs,
    Walked map (occursBranches c bs) (collectIdentsInBranches bs)
      (occursBranches c (renameBranchesScoped map c.known bs))
  | [] => .nil []
  | .mk pattern channel body _ :: branches =>
    (walked_expr c channel).append
      ((walked_block (c.bindSelect pattern) body).append (walked_branches c branches))

theorem walked_timeout (c : Scope) : ∀ t,
    Walked map (occursTimeout c t) (collectIdentsInTimeout t)
      (occursTimeout c (renameTimeoutScoped map c.known t))
  | none => .nil []
  | some (.mk durationMs body _) => (walked_expr c durationMs).append (walked_block c body)

theorem walked_stmt (c : Scope) : ∀ s, Walked map (occursStmt c s) (collectIdentsInStmt s)
    (occursStmt c (renameStmtScoped map c.known s))
  | .letStmt _ _ _ value _ _ => (walked_exprOpt c value).append_skip
  | .assign target _ value _ => (walked_expr c target).append (walked_expr c value)
  | .returnStmt value _ => walked_exprOpt c value
  | .ifStmt condition thenBlock elifs elseBlock _ =>
    (walked_expr c condition).append ((walked_block c thenBlock).append
      ((walked_elifs c elifs).append (walked_blockOpt c elseBlock)))
  | .forStmt _ pattern iterable body _ =>
    ((walked_expr c iterable).append
      (walked_block (c.bind (collectBoundInPattern pattern)) body)).skip_append
  | .whileStmt condition body _ => (walked_expr c condition).append (walked_block c body)
  | .exprStmt e _ | .spawn e _ | .throwStmt e _ => walked_expr c e
  | .select branches timeout _ => (walked_branches c branches).append (walked_timeout c timeout)
  | .tryCatch tryBlock catchName catchBlock _ =>
    (walked_block c tryBlock).append (walked_block (c.bind [catchName]) catchBlock)
  | .denyBlock _ body _ => walked_block c body
  | .breakStmt _ | .continueStmt _ => .nil []

end

theorem walked_function (params : List Param) (body : Option Block) :
    Walked map (occursFunction params body) (collectIdentsInBlockOpt body)
      (occursFunction params (body.map (renameInFnBody map params))) := by
  refine Walked.skip_append ?_
  cases body with
  | none => exact .nil []
  | some body =>
    have hbody : Walked map _ _ _ := walked_block (topLevel.bind (params.map paramName)) body
    have hknown : (topLevel.bind (params.map paramName)).known = params.map paramName :=
      List.append_nil _
    rw [hknown] at hbody
    exact hbody

theorem walked_method (m : Decl) :
    Walked map (occursMethod m) (collectIdentsInDecl m) (occursMethod (renameMethod map m)) := by
  cases m with
  | function name generics params retTy body =>
    cases body with
    | none => exact walked_function params none
    | some body => exact walked_function params (some body)
  | _ => exact .nil _

theorem walked_methods (methods : List Decl) :
    Walked map (methods.flatMap occursMethod) (collectIdentsInDecls methods)
      ((methods.map (renameMethod map)).flatMap occursMethod) := by
  induction methods with
  | nil => exact .nil []
  | cons m methods ih =>
    rw [List.map_cons, List.flatMap_cons, List.flatMap_cons]
    exact (walked_method m).append ih

theorem walked_decl (map : Renaming) (d : Decl) :
    Walked map (occursDecl d) (collectIdentsInDecl d) (occursDecl (renameIdentsInDecl map d)) := by
  cases d with
  | function name generics params retTy body =>
    cases body with
    | none => exact walked_function params none
    | some body => exact walked_function params (some body)
  | trait name generics methods | impl target traitName generics methods =>
    exact walked_methods methods
  | const name ty value => exact walked_expr topLevel value
  | struct | actor | externBlock => exact .skip _ _
  | enum | typeAlias | importDecl => exact .nil _

/-- What a declaration mentions in a visited place is collected. -/
theorem visited_mem_collect {d : Decl} {o : Occurrence} (ho : o ∈ occursDecl d)
    (hv : o.visited = true) : o.name ∈ collectIdentsInDecl d :=
  (walked_decl [] d).collected (List.mem_map.mpr ⟨o, List.mem_filter.mpr ⟨ho, hv⟩, rfl⟩)

/-- Renaming a declaration renames its visited occurrences that no known local shadows, and does
nothing else. -/
theorem occursDecl_rename (d : Decl) :
    occursDecl (renameIdentsInDecl map d) = (occursDecl d).map (Occurrence.rename map) :=
  (walked_decl map d).renamed

end Walks

end Kryos.Driver

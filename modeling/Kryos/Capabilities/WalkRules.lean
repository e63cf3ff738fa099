import Kryos.Capabilities.Enforcement

/-!
# Rules for the enforcement walk

Where a name is bound, and what is denied there, can be read off the text of a body. This is that
reading, expression by expression in the order of the walk. The walk is put together from a few
operations on the state of the pass. What every one of them keeps, the walk over any expression,
statement or block keeps (`WalkRules`).

## Main results

* `logs_block` — a walk leaves the scopes as it found them, and its errors are what is reported at
  the expressions that it visits
* `outside_arrivalsAll` — the states in which the walk comes to the functions of a module
-/

namespace Kryos.Capabilities

open Kryos.Ast Checker

/-! ## Reading the scopes off the text -/

/-- Where an expression stands. `bound` are the names that a parameter, a `let`, a `for`, a `catch`
or a lambda binds there; `armBound` are those of the arms of a match, the branches of a select and
the parameters of a message handler; `denied` are the lists of the `deny!` blocks around, with the
innermost in front. -/
structure Lexical where
  bound : Finset String
  armBound : Finset String
  denied : List (List String)

namespace Lexical

/-- All the names that are bound. -/
def names (c : Lexical) : Finset String := c.bound ∪ c.armBound

def bind (names : List String) (c : Lexical) : Lexical := { c with bound := c.bound ∪ names.toFinset }

def arm (names : List String) (c : Lexical) : Lexical :=
  { c with armBound := c.armBound ∪ names.toFinset }

def deny (denied : List String) (c : Lexical) : Lexical := { c with denied := denied :: c.denied }

/-- What follows a statement in its block. -/
def after (c : Lexical) : Stmt → Lexical
  | .letStmt name _ _ _ pattern _ => c.bind (name :: optionPatternNames pattern)
  | _ => c

theorem denied_after (c : Lexical) (s : Stmt) : (c.after s).denied = c.denied := by
  cases s <;> rfl

end Lexical

section Reading

/- A bare name in an arm's pattern may bind, or stand for a variant of the subject's enum; the types
decide. So what a pattern binds is a parameter. -/
variable (armNames : Pattern → List String)

mutual

def lexicalExpr (c : Lexical) : Expr → List (Expr × Lexical)
  | e@(.fnCall callee args _) =>
    (e, c) :: ((if isIdentifier callee then [] else lexicalExpr c callee) ++ lexicalExprs c args)
  | e@(.methodCall object _ args _) => (e, c) :: (lexicalExpr c object ++ lexicalExprs c args)
  | e@(.staticMethodCall _ _ args _) => (e, c) :: lexicalExprs c args
  | e@(.fieldAccess object _ _) => (e, c) :: lexicalExpr c object
  | e@(.indexAccess object index _) => (e, c) :: (lexicalExpr c object ++ lexicalExpr c index)
  | e@(.binaryOp _ left right _) => (e, c) :: (lexicalExpr c left ++ lexicalExpr c right)
  | e@(.unaryOp _ operand _) => (e, c) :: lexicalExpr c operand
  | e@(.arrayLiteral elements _) => (e, c) :: lexicalExprs c elements
  | e@(.tupleLiteral elements _) => (e, c) :: lexicalExprs c elements
  | e@(.mapLiteral entries _) => (e, c) :: lexicalEntries c entries
  | e@(.structLiteral _ fields _) => (e, c) :: lexicalFields c fields
  | e@(.lambda params _ body _) => (e, c) :: lexicalExpr (c.bind (params.map paramName)) body
  | e@(.ifExpr condition thenBranch elseBranch _) =>
    (e, c) :: (lexicalExpr c condition ++ (lexicalBlock c thenBranch ++
      lexicalBlockOpt c elseBranch))
  | e@(.matchExpr subject arms _) => (e, c) :: (lexicalExpr c subject ++ lexicalArms c arms)
  | e@(.pipeExpr left right _) =>
    (e, c) :: (lexicalExpr c left ++ (if isIdentifier right then [] else lexicalExpr c right))
  | e@(.borrow inner _ _) => (e, c) :: lexicalExpr c inner
  | e@(.deref inner _) => (e, c) :: lexicalExpr c inner
  | e@(.sharedExpr inner _) => (e, c) :: lexicalExpr c inner
  | e@(.moveExpr inner _) => (e, c) :: lexicalExpr c inner
  | e@(.weakExpr inner _) => (e, c) :: lexicalExpr c inner
  | e@(.comptimeBlock body _) => (e, c) :: lexicalBlock c body
  | e@(.quantumBlock body _) => (e, c) :: lexicalBlock c body
  | e@(.unsafeBlock body _) => (e, c) :: lexicalBlock c body
  | e@(.cast inner _ _) => (e, c) :: lexicalExpr c inner
  | e@(.block block _) => (e, c) :: lexicalBlock c block
  | e@(.await value _) => (e, c) :: lexicalExpr c value
  | e@(.rangeExpr start stop _ _) => (e, c) :: (lexicalExprOpt c start ++ lexicalExprOpt c stop)
  | e@(.interpolatedString parts _) => (e, c) :: lexicalParts c parts
  | e@(.identifier ..) | e@(.intLiteral ..) | e@(.floatLiteral ..) | e@(.stringLiteral ..)
  | e@(.charLiteral ..) | e@(.boolLiteral ..) | e@(.noneLiteral ..) => [(e, c)]

def lexicalExprOpt (c : Lexical) : Option Expr → List (Expr × Lexical)
  | none => []
  | some e => lexicalExpr c e

def lexicalExprs (c : Lexical) : List Expr → List (Expr × Lexical)
  | [] => []
  | e :: es => lexicalExpr c e ++ lexicalExprs c es

def lexicalEntries (c : Lexical) : List (Expr × Expr) → List (Expr × Lexical)
  | [] => []
  | (k, v) :: entries => lexicalExpr c k ++ (lexicalExpr c v ++ lexicalEntries c entries)

def lexicalFields (c : Lexical) : List (String × Expr) → List (Expr × Lexical)
  | [] => []
  | (_, e) :: fields => lexicalExpr c e ++ lexicalFields c fields

def lexicalParts (c : Lexical) : List StringPart → List (Expr × Lexical)
  | [] => []
  | .literal _ :: parts => lexicalParts c parts
  | .expr e :: parts => lexicalExpr c e ++ lexicalParts c parts

/-- The pattern of an arm binds in its body and in its guard. -/
def lexicalArms (c : Lexical) : List MatchArm → List (Expr × Lexical)
  | [] => []
  | .mk pattern guard body _ :: arms =>
    lexicalExpr (c.arm (armNames pattern)) body ++
      (lexicalExprOpt (c.arm (armNames pattern)) guard ++ lexicalArms c arms)

def lexicalBlock (c : Lexical) : Block → List (Expr × Lexical)
  | .mk stmts _ => lexicalStmts c stmts

def lexicalBlockOpt (c : Lexical) : Option Block → List (Expr × Lexical)
  | none => []
  | some b => lexicalBlock c b

def lexicalStmts (c : Lexical) : List Stmt → List (Expr × Lexical)
  | [] => []
  | s :: stmts => lexicalStmt c s ++ lexicalStmts (c.after s) stmts

def lexicalElifs (c : Lexical) : List (Expr × Block) → List (Expr × Lexical)
  | [] => []
  | (cond, block) :: elifs => lexicalExpr c cond ++ (lexicalBlock c block ++ lexicalElifs c elifs)

/-- A branch binds the name that it receives in its body. -/
def lexicalBranches (c : Lexical) : List SelectBranch → List (Expr × Lexical)
  | [] => []
  | .mk pattern channel body _ :: branches =>
    lexicalExpr c channel ++ (lexicalBlock (c.arm [pattern]) body ++ lexicalBranches c branches)

def lexicalTimeout (c : Lexical) : Option SelectTimeout → List (Expr × Lexical)
  | none => []
  | some (.mk durationMs body _) => lexicalExpr c durationMs ++ lexicalBlock c body

def lexicalStmt (c : Lexical) : Stmt → List (Expr × Lexical)
  | .letStmt _ _ _ value _ _ => lexicalExprOpt c value
  | .assign target _ value _ => lexicalExpr c target ++ lexicalExpr c value
  | .returnStmt value _ => lexicalExprOpt c value
  | .ifStmt condition thenBlock elifClauses elseBlock _ =>
    lexicalExpr c condition ++ (lexicalBlock c thenBlock ++ (lexicalElifs c elifClauses ++
      lexicalBlockOpt c elseBlock))
  | .forStmt _ pattern iterable body _ =>
    lexicalExpr c iterable ++ lexicalBlock (c.bind (patternNames pattern)) body
  | .whileStmt condition body _ => lexicalExpr c condition ++ lexicalBlock c body
  | .exprStmt e _ => lexicalExpr c e
  | .spawn e _ => lexicalExpr c e
  | .tryCatch tryBlock catchName catchBlock _ =>
    lexicalBlock c tryBlock ++ lexicalBlock (c.bind [catchName]) catchBlock
  | .throwStmt e _ => lexicalExpr c e
  | .select branches timeout _ => lexicalBranches c branches ++ lexicalTimeout c timeout
  | .denyBlock denied body _ => lexicalBlock (c.deny denied) body
  | .breakStmt _ => []
  | .continueStmt _ => []

end

/-- A body with these parameters. -/
def Lexical.function (params : List Param) : Lexical := ⟨paramNames params, ∅, []⟩

def Lexical.handler (params : List Param) : Lexical := ⟨∅, paramNames params, []⟩

def Lexical.global : Lexical := ⟨∅, ∅, []⟩

mutual

def lexicalDecl : Decl → List (Expr × Lexical)
  | .function _ _ params _ body .. => lexicalBlockOpt armNames (.function params) body
  | .actor _ _ handlers .. =>
    handlers.flatMap fun h => lexicalBlock armNames (.handler h.params) h.body
  | .externBlock _ items .. => lexicalDecls items
  | .impl _ _ _ methods .. => lexicalDecls methods
  | .trait _ _ methods .. => lexicalDecls methods
  | .const _ _ value .. => lexicalExpr armNames .global value
  | .importDecl .. | .struct .. | .enum .. | .typeAlias .. => []

def lexicalDecls : List Decl → List (Expr × Lexical)
  | [] => []
  | d :: decls => lexicalDecl d ++ lexicalDecls decls

end

end Reading

/-! ## Rules -/

section

variable {F : Type} (T : Tables F)

/-- A property of parts of the walk, of the places where they begin and end and of the places that
they come to in between. The operations of the walk keep it. -/
structure WalkRules
    (P : (Checker F → Checker F) → Lexical → List (Expr × Lexical) → Lexical → Prop) : Prop where
  skip : ∀ c, P (fun σ => σ) c [] c
  enter : ∀ e c, P (Checker.enter T e) c [(e, c)] c
  comp : ∀ {f g c c' c'' ps qs}, P f c ps c' → P g c' qs c'' → P (fun σ => g (f σ)) c (ps ++ qs) c''
  bind : ∀ names c, P (Checker.bind names) c [] (c.bind names)
  /-- The bindings of `f` end where `f` ends. -/
  restored : ∀ {f c ps c'}, P f c ps c' → c'.denied = c.denied →
    P (fun σ => (f σ).restoreLocals σ) c ps c
  lambda : ∀ {f c ps} params,
    P f (c.bind (params.map paramName)) ps (c.bind (params.map paramName)) →
    P (fun σ => (f (σ.enterLambda params)).leaveLambda σ) c ps c
  /-- What an arm binds, the walk does not have. -/
  arm : ∀ {f c ps} names, P f (c.arm names) ps (c.arm names) → P f c ps c
  deny : ∀ {f c ps} denied span, P f (c.deny denied) ps (c.deny denied) →
    P (fun σ => (f ((σ.report (denyWarning denied span)).pushScope
      (narrowed denied σ.scopeStack))).popScope) c ps c

variable {P : (Checker F → Checker F) → Lexical → List (Expr × Lexical) → Lexical → Prop}
  {f g : Checker F → Checker F} {c c' c'' : Lexical} {ps qs : List (Expr × Lexical)}

/-- The rules give the property of the part. -/
def Keeps (P : (Checker F → Checker F) → Lexical → List (Expr × Lexical) → Lexical → Prop)
    (f : Checker F → Checker F) (c : Lexical) (ps : List (Expr × Lexical)) (c' : Lexical) : Prop :=
  WalkRules T P → P f c ps c'

namespace Keeps

variable {T}

theorem skip : Keeps T P (fun σ => σ) c [] c := fun h => h.skip c

variable (T) in
theorem enter (e : Expr) : Keeps T P (Checker.enter T e) c [(e, c)] c := fun h => h.enter e c

theorem comp (hf : Keeps T P f c ps c') (hg : Keeps T P g c' qs c'') :
    Keeps T P (fun σ => g (f σ)) c (ps ++ qs) c'' := fun h => h.comp (hf h) (hg h)

variable (T) in
theorem into (e : Expr) (hf : Keeps T P f c ps c') :
    Keeps T P (fun σ => f (σ.enter T e)) c ((e, c) :: ps) c' := (enter T e).comp hf

theorem guarded (b : Bool) (hf : Keeps T P f c ps c) :
    Keeps T P (fun σ => if b then σ else f σ) c (if b then [] else ps) c := by
  cases b with
  | true => exact skip
  | false => exact hf

theorem bind (names : List String) : Keeps T P (Checker.bind names) c [] (c.bind names) :=
  fun h => h.bind names c

theorem restored (hf : Keeps T P f c ps c') (hdenied : c'.denied = c.denied) :
    Keeps T P (fun σ => (f σ).restoreLocals σ) c ps c := fun h => h.restored (hf h) hdenied

theorem bound {names : List String} (hf : Keeps T P f (c.bind names) ps (c.bind names)) :
    Keeps T P (fun σ => (f (σ.bind names)).restoreLocals σ) c ps c :=
  ((bind names).comp hf).restored rfl

theorem lambda {params : List Param}
    (hf : Keeps T P f (c.bind (params.map paramName)) ps (c.bind (params.map paramName))) :
    Keeps T P (fun σ => (f (σ.enterLambda params)).leaveLambda σ) c ps c :=
  fun h => h.lambda params (hf h)

theorem arm {names : List String} (hf : Keeps T P f (c.arm names) ps (c.arm names)) :
    Keeps T P f c ps c := fun h => h.arm names (hf h)

theorem deny {denied : List String} {span : Span}
    (hf : Keeps T P f (c.deny denied) ps (c.deny denied)) :
    Keeps T P (fun σ => (f (((σ.report (denyWarning denied span)).pushScope
      (narrowed denied σ.scopeStack)))).popScope) c ps c := fun h => h.deny denied span (hf h)

end Keeps

variable (armNames : Pattern → List String)

mutual

theorem keeps_expr : (e : Expr) → (c : Lexical) →
    Keeps T P (checkExpr T e) c (lexicalExpr armNames c e) c
  | .fnCall callee args _, c =>
    .into T _ ((Keeps.guarded (isIdentifier callee) (keeps_expr callee c)).comp (keeps_exprs args c))
  | .methodCall object _ args _, c => .into T _ ((keeps_expr object c).comp (keeps_exprs args c))
  | .staticMethodCall _ _ args _, c => .into T _ (keeps_exprs args c)
  | .fieldAccess object _ _, c => .into T _ (keeps_expr object c)
  | .indexAccess object index _, c => .into T _ ((keeps_expr object c).comp (keeps_expr index c))
  | .binaryOp _ left right _, c => .into T _ ((keeps_expr left c).comp (keeps_expr right c))
  | .unaryOp _ operand _, c => .into T _ (keeps_expr operand c)
  | .arrayLiteral elements _, c | .tupleLiteral elements _, c => .into T _ (keeps_exprs elements c)
  | .mapLiteral entries _, c => .into T _ (keeps_entries entries c)
  | .structLiteral _ fields _, c => .into T _ (keeps_fields fields c)
  | .lambda params _ body _, c =>
    .into T _ (Keeps.lambda (keeps_expr body (c.bind (params.map paramName))))
  | .ifExpr condition thenBranch elseBranch _, c =>
    .into T _ ((keeps_expr condition c).comp ((keeps_block thenBranch c).comp
      (keeps_blockOpt elseBranch c)))
  | .matchExpr subject arms _, c => .into T _ ((keeps_expr subject c).comp (keeps_arms arms c))
  | .pipeExpr left right _, c =>
    .into T _ ((keeps_expr left c).comp (Keeps.guarded (isIdentifier right) (keeps_expr right c)))
  | .borrow inner _ _, c | .deref inner _, c | .sharedExpr inner _, c | .moveExpr inner _, c
  | .weakExpr inner _, c | .cast inner _ _, c => .into T _ (keeps_expr inner c)
  | .comptimeBlock body _, c | .quantumBlock body _, c | .unsafeBlock body _, c =>
    .into T _ (keeps_block body c)
  | .block block _, c => .into T _ (keeps_block block c)
  | .await value _, c => .into T _ (keeps_expr value c)
  | .rangeExpr start stop _ _, c =>
    .into T _ ((keeps_exprOpt start c).comp (keeps_exprOpt stop c))
  | .interpolatedString parts _, c => .into T _ (keeps_parts parts c)
  | .identifier .., _ | .intLiteral .., _ | .floatLiteral .., _ | .stringLiteral .., _
  | .charLiteral .., _ | .boolLiteral .., _ | .noneLiteral .., _ => Keeps.enter T _

theorem keeps_exprOpt : (e : Option Expr) → (c : Lexical) →
    Keeps T P (checkExprOpt T e) c (lexicalExprOpt armNames c e) c
  | none, _ => .skip
  | some e, c => keeps_expr e c

theorem keeps_exprs : (es : List Expr) → (c : Lexical) →
    Keeps T P (checkExprs T es) c (lexicalExprs armNames c es) c
  | [], _ => .skip
  | e :: es, c => (keeps_expr e c).comp (keeps_exprs es c)

theorem keeps_entries : (entries : List (Expr × Expr)) → (c : Lexical) →
    Keeps T P (checkEntries T entries) c (lexicalEntries armNames c entries) c
  | [], _ => .skip
  | (k, v) :: entries, c => (keeps_expr k c).comp ((keeps_expr v c).comp (keeps_entries entries c))

theorem keeps_fields : (fields : List (String × Expr)) → (c : Lexical) →
    Keeps T P (checkFields T fields) c (lexicalFields armNames c fields) c
  | [], _ => .skip
  | (_, e) :: fields, c => (keeps_expr e c).comp (keeps_fields fields c)

theorem keeps_parts : (parts : List StringPart) → (c : Lexical) →
    Keeps T P (checkParts T parts) c (lexicalParts armNames c parts) c
  | [], _ => .skip
  | .literal _ :: parts, c => keeps_parts parts c
  | .expr e :: parts, c => (keeps_expr e c).comp (keeps_parts parts c)

theorem keeps_arms : (arms : List MatchArm) → (c : Lexical) →
    Keeps T P (checkArms T arms) c (lexicalArms armNames c arms) c
  | [], _ => .skip
  | .mk pattern guard body _ :: arms, c =>
    (Keeps.arm (keeps_expr body (c.arm (armNames pattern)))).comp
      ((Keeps.arm (keeps_exprOpt guard (c.arm (armNames pattern)))).comp (keeps_arms arms c))

theorem keeps_block : (b : Block) → (c : Lexical) →
    Keeps T P (checkBlock T b) c (lexicalBlock armNames c b) c
  | .mk stmts _, c => by
    obtain ⟨c', hdenied, hstmts⟩ := keeps_stmts stmts c
    exact hstmts.restored hdenied

theorem keeps_blockOpt : (b : Option Block) → (c : Lexical) →
    Keeps T P (checkBlockOpt T b) c (lexicalBlockOpt armNames c b) c
  | none, _ => .skip
  | some b, c => keeps_block b c

/-- The statements of a block. Only what is bound changes. -/
theorem keeps_stmts : (stmts : List Stmt) → (c : Lexical) → ∃ c', c'.denied = c.denied ∧
    Keeps T P (checkStmts T stmts) c (lexicalStmts armNames c stmts) c'
  | [], c => ⟨c, rfl, .skip⟩
  | s :: stmts, c => by
    obtain ⟨c', hdenied, hstmts⟩ := keeps_stmts stmts (c.after s)
    exact ⟨c', hdenied.trans (c.denied_after s), (keeps_stmt s c).comp hstmts⟩

theorem keeps_elifs : (elifs : List (Expr × Block)) → (c : Lexical) →
    Keeps T P (checkElifs T elifs) c (lexicalElifs armNames c elifs) c
  | [], _ => .skip
  | (cond, block) :: elifs, c =>
    (keeps_expr cond c).comp ((keeps_block block c).comp (keeps_elifs elifs c))

theorem keeps_branches : (branches : List SelectBranch) → (c : Lexical) →
    Keeps T P (checkBranches T branches) c (lexicalBranches armNames c branches) c
  | [], _ => .skip
  | .mk pattern channel body _ :: branches, c =>
    (keeps_expr channel c).comp ((Keeps.arm (keeps_block body (c.arm [pattern]))).comp
      (keeps_branches branches c))

theorem keeps_timeout : (timeout : Option SelectTimeout) → (c : Lexical) →
    Keeps T P (checkTimeout T timeout) c (lexicalTimeout armNames c timeout) c
  | none, _ => .skip
  | some (.mk durationMs body _), c => (keeps_expr durationMs c).comp (keeps_block body c)

theorem keeps_stmt : (s : Stmt) → (c : Lexical) →
    Keeps T P (checkStmt T s) c (lexicalStmt armNames c s) (c.after s)
  | .letStmt name _ _ value pattern _, c => by
    have hlet := (keeps_exprOpt value c).comp (Keeps.bind (name :: optionPatternNames pattern))
    rw [List.append_nil] at hlet
    exact hlet
  | .assign target _ value _, c => (keeps_expr target c).comp (keeps_expr value c)
  | .returnStmt value _, c => keeps_exprOpt value c
  | .ifStmt condition thenBlock elifClauses elseBlock _, c =>
    (keeps_expr condition c).comp ((keeps_block thenBlock c).comp ((keeps_elifs elifClauses c).comp
      (keeps_blockOpt elseBlock c)))
  | .forStmt _ pattern iterable body _, c =>
    (keeps_expr iterable c).comp (Keeps.bound (keeps_block body (c.bind (patternNames pattern))))
  | .whileStmt condition body _, c => (keeps_expr condition c).comp (keeps_block body c)
  | .exprStmt e _, c | .spawn e _, c | .throwStmt e _, c => keeps_expr e c
  | .tryCatch tryBlock catchName catchBlock _, c =>
    (keeps_block tryBlock c).comp (Keeps.bound (keeps_block catchBlock (c.bind [catchName])))
  | .select branches timeout _, c => (keeps_branches branches c).comp (keeps_timeout timeout c)
  | .denyBlock denied body _, c => Keeps.deny (keeps_block body (c.deny denied))
  | .breakStmt _, _ | .continueStmt _, _ => .skip

end

/-! ## What is reported -/

/-- The errors among the diagnostics. -/
def Checker.errors (σ : Checker F) : List Diagnostic := σ.diagnostics.filter Diagnostic.isError

/-- What is reported at these visits. -/
def reported (vs : List (Visit F)) : List Diagnostic := vs.flatMap fun v => T.reports v.ctx v.expr

/-- A part of the walk leaves the scopes, the actor's fields and the frame as they are, and its
errors are those reported at its visits, which have the same fields and frame. -/
def Logs (f : Checker F → Checker F) : Prop :=
  ∀ σ, (f σ).scopeStack = σ.scopeStack ∧
    (f σ).currentActorFnStateFields = σ.currentActorFnStateFields ∧ (f σ).frame = σ.frame ∧
    ∃ new, (f σ).visits = σ.visits ++ new ∧ (f σ).errors = σ.errors ++ reported T new ∧
      ∀ v ∈ new, v.ctx.currentActorFnStateFields = σ.currentActorFnStateFields ∧
        v.ctx.frame = σ.frame

theorem escalation_isError (name : Option String) (span : Span) :
    ∀ d ∈ escalation name span, d.isError := by
  intro d hd
  cases name with
  | none => exact absurd hd List.not_mem_nil
  | some name =>
    rw [escalation] at hd
    split at hd
    · rw [List.mem_singleton.mp hd]
    · exact absurd hd List.not_mem_nil

theorem reports_isError (ctx : Context F) (e : Expr) : ∀ d ∈ T.reports ctx e, d.isError := by
  intro d hd
  have hparts : d ∈ ((T.demands ctx e).flatMap fun d => d.report ctx.currentCaps) ∨
      d ∈ escalations e := by
    rw [Tables.reports] at hd
    split at hd
    · exact (List.mem_append.mp hd).symm
    · exact List.mem_append.mp hd
  rcases hparts with hmissing | hescalation
  · obtain ⟨demand, -, hreport⟩ := List.mem_flatMap.mp hmissing
    cases hcaps : ctx.currentCaps with
    | none =>
      rw [hcaps] at hreport
      exact absurd hreport List.not_mem_nil
    | some caps =>
      rw [hcaps, Demand.report] at hreport
      split at hreport
      · exact absurd hreport List.not_mem_nil
      · rw [List.mem_singleton.mp hreport]
  · cases e with
    | fnCall => exact escalation_isError _ _ d hescalation
    | methodCall object method args span =>
      exact escalation_isError (some method) span d hescalation
    | pipeExpr left right span =>
      rw [escalations] at hescalation
      split at hescalation
      · exact absurd hescalation List.not_mem_nil
      · exact escalation_isError _ _ d hescalation
    | _ => exact absurd hescalation List.not_mem_nil

theorem errors_report (diagnostics : List Diagnostic) (σ : Checker F) :
    (σ.report diagnostics).errors = σ.errors ++ diagnostics.filter Diagnostic.isError :=
  List.filter_append _ _

theorem denyWarning_no_error (denied : List String) (span : Span) :
    (denyWarning denied span).filter Diagnostic.isError = [] := by
  rw [denyWarning]
  split
  · rfl
  · rfl

/-- An operation that visits nothing. -/
theorem Logs.quiet {f : Checker F → Checker F} (hscopes : ∀ σ, (f σ).scopeStack = σ.scopeStack)
    (hfields : ∀ σ, (f σ).currentActorFnStateFields = σ.currentActorFnStateFields)
    (hframe : ∀ σ, (f σ).frame = σ.frame) (hvisits : ∀ σ, (f σ).visits = σ.visits)
    (herrors : ∀ σ, (f σ).errors = σ.errors) : Logs T f := fun σ =>
  ⟨hscopes σ, hfields σ, hframe σ, [], by rw [hvisits, List.append_nil],
    by rw [herrors]; exact (List.append_nil _).symm, fun _ h => absurd h List.not_mem_nil⟩

theorem logs_enter (e : Expr) : Logs T (Checker.enter T e) := by
  intro σ
  refine ⟨rfl, rfl, rfl, [⟨e, σ.toContext⟩], rfl, ?_, ?_⟩
  · show (σ.diagnostics ++ T.reports σ.toContext e).filter _ = _ ++ [_].flatMap _
    rw [List.filter_append, List.flatMap_singleton,
      List.filter_eq_self.mpr (reports_isError T σ.toContext e)]
    rfl
  · intro v hv
    rw [List.mem_singleton.mp hv]
    exact ⟨rfl, rfl⟩

theorem Logs.comp {f g : Checker F → Checker F} (hf : Logs T f) (hg : Logs T g) :
    Logs T fun σ => g (f σ) := by
  intro σ
  obtain ⟨hscopes, hfields, hframe, new, hvisits, herrors, hnew⟩ := hf σ
  obtain ⟨hscopes', hfields', hframe', new', hvisits', herrors', hnew'⟩ := hg (f σ)
  refine ⟨hscopes'.trans hscopes, hfields'.trans hfields, hframe'.trans hframe, new ++ new', ?_, ?_,
    ?_⟩
  · rw [hvisits', hvisits, List.append_assoc]
  · rw [herrors', herrors, List.append_assoc, reported, reported, reported, List.flatMap_append]
  · intro v hv
    rcases List.mem_append.mp hv with hv | hv
    · exact hnew v hv
    · rw [← hfields, ← hframe]
      exact hnew' v hv

theorem logs_rules : WalkRules T (fun f _ _ _ => Logs T f) where
  skip _ := .quiet T (fun _ => rfl) (fun _ => rfl) (fun _ => rfl) (fun _ => rfl) fun _ => rfl
  enter e _ := logs_enter T e
  comp hf hg := hf.comp T hg
  bind _ _ := .quiet T (fun _ => rfl) (fun _ => rfl) (fun _ => rfl) (fun _ => rfl) fun _ => rfl
  restored hf _ σ := hf σ
  lambda params hf σ := hf (σ.enterLambda params)
  arm _ hf := hf
  deny := by
    intro f _ _ denied span hf σ
    obtain ⟨hscopes, hfields, hframe, new, hvisits, herrors, hnew⟩ :=
      hf ((σ.report (denyWarning denied span)).pushScope (narrowed denied σ.scopeStack))
    refine ⟨congrArg List.tail hscopes, hfields, hframe, new, hvisits, ?_, hnew⟩
    refine herrors.trans (congrArg (· ++ reported T new) ?_)
    show (σ.report (denyWarning denied span)).errors = σ.errors
    rw [errors_report, denyWarning_no_error, List.append_nil]

theorem logs_block (b : Block) : Logs T (checkBlock T b) := keeps_block T patternNames b .global (logs_rules T)

/-! ## Over declarations -/

/-- The part leaves the scopes and the actor's fields as they are. -/
def Restores (f : Checker F → Checker F) : Prop :=
  ∀ σ, (f σ).scopeStack = σ.scopeStack ∧
    (f σ).currentActorFnStateFields = σ.currentActorFnStateFields

theorem Restores.comp {f g : Checker F → Checker F} (hf : Restores f) (hg : Restores g) :
    Restores fun σ => g (f σ) := fun σ =>
  ⟨(hg (f σ)).1.trans (hf σ).1, (hg (f σ)).2.trans (hf σ).2⟩

theorem restores_of_logs {f : Checker F → Checker F} (hf : Logs T f) : Restores f := fun σ =>
  ⟨(hf σ).1, (hf σ).2.1⟩

theorem restores_function (name : String) (annotations : List Annotation) (body : Option Block)
    (span : Span) : Restores (checkFunction T name annotations body span) := by
  intro σ
  have hbody := restores_of_logs T (keeps_blockOpt T patternNames body .global (logs_rules T))
  obtain ⟨hscopes, hfields⟩ := hbody _
  exact ⟨congrArg List.tail hscopes, hfields⟩

theorem restores_handlers (handlers : List MessageHandler) :
    Restores (checkHandlers T handlers) := by
  induction handlers with
  | nil => exact fun _ => ⟨rfl, rfl⟩
  | cons handler handlers ih =>
    have hhandler : Restores (checkHandler T handler) := fun σ =>
      restores_of_logs T (logs_block T handler.body) { σ with
        currentFnTypedParams := fnTypedNames T handler.params
        frame := T.handlerFrame handler }
    exact hhandler.comp ih

theorem restores_actor (name : String) (annotations : List Annotation)
    (stateFields : List StructField) (handlers : List MessageHandler) :
    Restores (checkActor T name annotations stateFields handlers) := by
  intro σ
  obtain ⟨hscopes, -⟩ := restores_handlers T handlers _
  exact ⟨congrArg List.tail hscopes, rfl⟩

mutual

theorem restores_decl : (d : Decl) → Restores (checkDecl T d)
  | .function name _ params _ body _ _ annotations _ span => fun σ =>
    restores_function T name annotations body span { σ with
      currentLocals := paramNames params
      currentFnTypedParams := fnTypedNames T params
      frame := T.functionFrame params body }
  | .actor name stateFields handlers annotations _ _ =>
    restores_actor T name annotations stateFields handlers
  | .externBlock _ items _ _ => fun _ => restores_decls items _
  | .impl _ _ _ methods _ _ | .trait _ _ methods _ _ _ => restores_decls methods
  | .importDecl _ _ _ | .struct .. | .enum .. | .typeAlias .. => fun _ => ⟨rfl, rfl⟩
  | .const _ _ value _ _ _ _ => fun _ =>
    have hvalue := restores_of_logs T (keeps_expr T patternNames value .global (logs_rules T)) _
    ⟨congrArg List.tail hvalue.1, hvalue.2⟩

theorem restores_decls : (ds : List Decl) → Restores (checkDecls T ds)
  | [] => fun _ => ⟨rfl, rfl⟩
  | d :: ds => (restores_decl d).comp (restores_decls ds)

end

/-! ## The functions of a module -/

mutual

/-- The functions that are checked in the walk over a declaration, each with the state that the
walk comes to it in. -/
def arrivals : Decl → Checker F → List (Decl × Checker F)
  | d@(.function ..), σ => [(d, σ)]
  | .impl _ _ _ methods _ _, σ => arrivalsAll methods σ
  | .trait _ _ methods _ _ _, σ => arrivalsAll methods σ
  | .externBlock abi items docs span, σ =>
    arrivalsAll items (checkDecl T (.externBlock abi [] docs span) σ)
  | _, _ => []

def arrivalsAll : List Decl → Checker F → List (Decl × Checker F)
  | [], _ => []
  | d :: ds, σ => arrivals d σ ++ arrivalsAll ds (checkDecl T d σ)

end

/-- No scope is open, and the walk is in no actor. -/
def Outside (σ : Checker F) : Prop := σ.scopeStack = [] ∧ σ.currentActorFnStateFields = ∅

theorem Outside.of_restores {f : Checker F → Checker F} (hf : Restores f) {σ : Checker F}
    (h : Outside σ) : Outside (f σ) := ⟨(hf σ).1.trans h.1, (hf σ).2.trans h.2⟩

mutual

theorem outside_arrivals : (d : Decl) → (σ : Checker F) → Outside σ →
    ∀ p ∈ arrivals T d σ, Outside p.2
  | .function .., _, h => fun _ hp => by
    rw [List.mem_singleton.mp hp]
    exact h
  | .impl _ _ _ methods _ _, σ, h | .trait _ _ methods _ _ _, σ, h =>
    outside_arrivalsAll methods σ h
  | .externBlock abi items docs span, σ, h =>
    outside_arrivalsAll items _ (h.of_restores (restores_decl T (.externBlock abi [] docs span)))
  | .struct .., _, _ | .enum .., _, _ | .typeAlias .., _, _ | .actor .., _, _
  | .importDecl .., _, _ | .const .., _, _ => fun _ hp => absurd hp List.not_mem_nil

theorem outside_arrivalsAll : (ds : List Decl) → (σ : Checker F) → Outside σ →
    ∀ p ∈ arrivalsAll T ds σ, Outside p.2
  | [], _, _ => fun _ hp => absurd hp List.not_mem_nil
  | d :: ds, σ, h => fun p hp =>
    (List.mem_append.mp hp).elim (outside_arrivals d σ h p)
      (outside_arrivalsAll ds _ (h.of_restores (restores_decl T d)) p)

end

end

end Kryos.Capabilities

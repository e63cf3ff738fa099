import Kryos.Capabilities.Model
import Kryos.Decl
import Mathlib.Data.Finset.Union
import Mathlib.Data.Finset.Dedup

/-!
# The enforcement walk

The second pass of the capability checker. It walks the body of every function under the
capabilities that are in force there, and asks at every call, and at every name that is used as a
value, for what the callee needs.

The tables of the first passes, and the resolvers of what a function value carries, are arbitrary
here. They only read what the walk has in its `Context`. What the walk keeps up by hand is written
out: the stack of scopes, the set of local names and the two sets of parameters that hold function
values.

The walk of the source leaves nothing but diagnostics. Here it also leaves the expressions it has
visited, each with the context it was visited in.
-/

namespace Kryos.Capabilities

open Kryos.Ast

inductive CapabilityMode where
  | permissive | inferred | strict
deriving DecidableEq, Repr

structure CapabilityScope where
  capabilities : CapabilitySet
  annotated : Bool
deriving DecidableEq

structure Diagnostic where
  isError : Bool
  code : String
  message : String
  span : Span
deriving DecidableEq, Repr

/-- What the checks of a body read. `frame` is what is known about the local function values and
containers of the body; the walk does not change it. The scope stack has its top in front. -/
structure Context (F : Type) where
  scopeStack : List CapabilityScope
  currentFnEntryScopeDepth : ℕ
  currentLocals : Finset String
  currentFnTypedParams : Finset String
  transparentLambdaParams : Finset String
  currentActorFnStateFields : Finset String
  frame : F

structure Visit (F : Type) where
  expr : Expr
  ctx : Context F

/-- The state of the pass. -/
structure Checker (F : Type) extends Context F where
  diagnostics : List Diagnostic
  visits : List (Visit F)

/-- What the earlier passes leave. -/
structure Tables (F : Type) where
  mode : CapabilityMode
  requiredCapabilityForPath : List String → Option Capability
  requiredCapabilityForBuiltin : String → Option Capability
  requiredCapabilityForNativeSymbol : String → Option Capability
  isKnownBuiltinName : String → Bool
  definedFns : Finset String
  actorNames : Finset String
  enumVariantNames : Finset String
  externFns : Finset String
  declaredTypeNames : Finset String
  fnCapabilities : String → Option CapabilitySet
  isFnBearingType : Option TypeExpr → Bool
  functionFrame : List Param → Option Block → F
  handlerFrame : MessageHandler → F
  emptyFrame : F
  accumulateHotExtraCaps : Context F → String → List Expr → Bool → CapabilitySet
  resolveMethodFieldInvokeCaps : Context F → Expr → String → CapabilitySet
  resolveActorSelfFieldInvokeCaps : Context F → Expr → String → CapabilitySet
  resolveDirectInvokeCaps : Context F → Expr → CapabilitySet

/-! ## Names -/

mutual

/-- The names in a pattern. -/
def patternNames : Pattern → List String
  | .ident name _ _ => [name]
  | .tuple elements _ => patternsNames elements
  | .or patterns _ => patternsNames patterns
  | .struct _ fields _ => fieldPatternsNames fields
  | .enum _ _ fields _ => patternsNames fields
  | .wildcard _ | .literal _ _ => []

def patternsNames : List Pattern → List String
  | [] => []
  | p :: ps => patternNames p ++ patternsNames ps

def fieldPatternsNames : List (String × Pattern) → List String
  | [] => []
  | (_, p) :: fields => patternNames p ++ fieldPatternsNames fields

end

def optionPatternNames : Option Pattern → List String
  | none => []
  | some p => patternNames p

def paramName : Param → String
  | .mk name _ _ _ => name

def paramType : Param → Option TypeExpr
  | .mk _ ty _ _ => ty

def paramNames (params : List Param) : Finset String := (params.map paramName).toFinset

/-- `std.net.connect` as `["std", "net", "connect"]`. -/
def resolvePath : Expr → List String
  | .identifier name _ => [name]
  | .fieldAccess object field _ => resolvePath object ++ [field]
  | _ => []

inductive PathStep where
  | field (name : String)
  | index
deriving DecidableEq

def decomposeContainerPath : Expr → Option (String × List PathStep)
  | .identifier name _ => some (name, [])
  | .fieldAccess object field _ => do
    let (root, path) ← decomposeContainerPath object
    return (root, path ++ [.field field])
  | .indexAccess object _ _ => do
    let (root, path) ← decomposeContainerPath object
    return (root, path ++ [.index])
  | .borrow inner _ _ => decomposeContainerPath inner
  | .deref inner _ => decomposeContainerPath inner
  | _ => none

def isIdentifier : Expr → Bool
  | .identifier .. => true
  | _ => false

def isMethodCall : Expr → Bool
  | .methodCall .. => true
  | _ => false

/-- The right side of a pipe has its callee inside. -/
def isCall : Expr → Bool
  | .fnCall .. | .methodCall .. | .staticMethodCall .. => true
  | _ => false

def prohibitedSelfHealActions : List String :=
  ["add_capability", "widen_sandbox", "increase_budget", "remove_spawn_limit",
   "modify_annotations", "escalate_tier"]

def isEscalationAction (name : String) : Bool := name ∈ prohibitedSelfHealActions

/-! ## Demands -/

/-- Something that needs capabilities, and how it is reported where they are missing. -/
structure Demand where
  required : CapabilitySet
  code : String
  message : List Capability → String
  span : Span

/-- Nothing is reported where no scope is open. -/
def Demand.report (d : Demand) : Option CapabilitySet → List Diagnostic
  | none => []
  | some caps =>
    if d.required.isSubsetOf caps then []
    else [⟨true, d.code, d.message (d.required.excessOver caps), d.span⟩]

/-- A demand for one capability. -/
def need (code what : String) (span : Span) (cap : Capability) : Demand where
  required := {cap}
  code := code
  message := fun _ => what ++ " requires `" ++ cap.display ++ "` capability"
  span := span

def names (caps : List Capability) : String := ", ".intercalate (caps.map Capability.display)

namespace Context

variable {F : Type} (T : Tables F) (ctx : Context F)

def currentCaps : Option CapabilitySet := ctx.scopeStack.head?.map CapabilityScope.capabilities

def hasAnnotatedScope : Bool := ctx.scopeStack.any CapabilityScope.annotated

/-- `self.strict_mode() || self.has_annotated_scope()` -/
def enforces : Bool := T.mode = .strict || ctx.hasAnnotatedScope

end Context

namespace Tables

variable {F : Type} (T : Tables F) (ctx : Context F)

def requiredCapabilityForExtern (name : String) : Option Capability :=
  if name ∉ T.externFns then none
  else if "kryos_".toList.isPrefixOf name.toList then
    T.requiredCapabilityForNativeSymbol (String.ofList (name.toList.drop 6))
  else some .ffi

/-- A `kryos_file_open` whose mode is the literal 0 only reads. -/
def requiredCapabilityForExternCall (name : String) (args : List Expr) : Option Capability := do
  let cap ← T.requiredCapabilityForExtern name
  match args with
  | _ :: _ :: .intLiteral 0 _ :: _ =>
    if name = "kryos_file_open" ∧ cap = .fsWrite then return .fsRead else return cap
  | _ => return cap

/-- `enforce_callee_name` -/
def calleeNameDemands (name : String) (span : Span) (isBuiltinName : Bool) (extra : CapabilitySet)
    (args : List Expr) : List Demand :=
  if ctx.enforces T then
    let builtin :=
      if isBuiltinName ∧ name ∉ T.definedFns then T.requiredCapabilityForBuiltin name else none
    let calleeCaps := (T.fnCapabilities name).getD ∅ ∪ extra
    builtin.toList.map (need "E0505" ("builtin `" ++ name ++ "`") span) ++
      (T.requiredCapabilityForExternCall name args).toList.map
        (need "E0506" ("extern function `" ++ name ++ "`") span) ++
      (if calleeCaps = ∅ then []
       else [{
        required := calleeCaps
        code := "E0507"
        message := fun excess => "call to `" ++ name ++ "` requires capabilities [" ++ names excess
          ++ "] not granted to caller"
        span := span }])
  else []

/-- `require_direct_invoke_caps` -/
def directInvokeDemands (required : CapabilitySet) (span : Span) : List Demand :=
  if required = ∅ then []
  else [{
    required := required
    code := "E0507"
    message := fun excess => "call through a function value requires capabilities ["
      ++ names excess ++ "] not granted to caller"
    span := span }]

/-- The name stands for a function, an actor, a variant or a builtin. A local hides all of these. -/
def calleeIsNamed (name : String) : Bool :=
  name ∉ ctx.currentLocals &&
    (name ∈ T.definedFns || name ∈ T.actorNames || name ∈ T.enumVariantNames ||
      T.isKnownBuiltinName name || name ∈ T.externFns)

def rootsAtLocal (callee : Expr) : Bool :=
  (decomposeContainerPath callee).any fun (root, path) => path ≠ [] && root ∈ ctx.currentLocals

/-- `check_callee_capabilities` -/
def calleeDemands (callee : Expr) (args : List Expr) (span : Span) : List Demand :=
  let segments := resolvePath callee
  let path := (T.requiredCapabilityForPath segments).toList.map
    (need "E0502" ("call to `" ++ "::".intercalate segments ++ "`") span)
  let (bare, calleeIsNamed) :=
    match segments with
    | [name] =>
      (T.calleeNameDemands ctx name span true (T.accumulateHotExtraCaps ctx name args false) args,
        T.calleeIsNamed ctx name)
    | _ => ([], false)
  let direct :=
    if ¬calleeIsNamed ∧ (segments.length ≤ 1 ∨ rootsAtLocal ctx callee) ∧ ctx.enforces T then
      directInvokeDemands (T.resolveDirectInvokeCaps ctx callee) span
    else []
  path ++ bare ++ direct

/-- `check_builtin_value_ref` -/
def valueDemands (name : String) (span : Span) : List Demand :=
  if ctx.enforces T then
    let builtin := if name ∉ T.definedFns then T.requiredCapabilityForBuiltin name else none
    let value := if name ∈ ctx.currentLocals then none else T.fnCapabilities name
    (T.requiredCapabilityForExtern name).toList.map
        (need "E0506" ("extern function `" ++ name ++ "` used as a value") span) ++
      builtin.toList.map (need "E0505" ("builtin `" ++ name ++ "` used as a value") span) ++
      value.toList.map fun caps => {
        required := caps
        code := "E0507"
        message := fun excess => "function `" ++ name
          ++ "` used as a value requires capabilities [" ++ names excess ++ "] not granted here"
        span := span }
  else []

/-- What is asked for at an expression. -/
def demands : Expr → List Demand
  | .fnCall callee args span => T.calleeDemands ctx callee args span
  | .methodCall object method args span =>
    T.calleeNameDemands ctx method span false
      (T.accumulateHotExtraCaps ctx method args true ∪
        T.resolveMethodFieldInvokeCaps ctx object method ∪
        T.resolveActorSelfFieldInvokeCaps ctx object method) args
  | .staticMethodCall typeName method args span =>
    let isGatedBuiltin :=
      (T.requiredCapabilityForBuiltin method).isSome && typeName ∉ T.declaredTypeNames
    T.calleeNameDemands ctx method span isGatedBuiltin
      (T.accumulateHotExtraCaps ctx method args true) args
  | .pipeExpr left right span => if isCall right then [] else T.calleeDemands ctx right [left] span
  | .identifier name span => T.valueDemands ctx name span
  | _ => []

end Tables

def escalation (name : Option String) (span : Span) : List Diagnostic :=
  match name with
  | some name =>
    if isEscalationAction name then
      [⟨true, "E0504", "prohibited capability escalation: `" ++ name ++ "` cannot be called", span⟩]
    else []
  | none => []

/-- The prohibited calls. -/
def escalations : Expr → List Diagnostic
  | .fnCall callee _ span => escalation (resolvePath callee).getLast? span
  | .methodCall _ method _ span => escalation (some method) span
  | .pipeExpr _ right span => if isCall right then [] else escalation (resolvePath right).getLast? span
  | _ => []

/-- What is reported at an expression. A method call is looked at for escalation first. -/
def Tables.reports {F : Type} (T : Tables F) (ctx : Context F) (e : Expr) : List Diagnostic :=
  let missing := (T.demands ctx e).flatMap fun d => d.report ctx.currentCaps
  if isMethodCall e then escalations e ++ missing else missing ++ escalations e

/-! ## The walk -/

namespace Checker

variable {F : Type} (T : Tables F)

def report (diagnostics : List Diagnostic) (σ : Checker F) : Checker F :=
  { σ with diagnostics := σ.diagnostics ++ diagnostics }

/-- What `check_expr` does before it goes into an expression. -/
def enter (e : Expr) (σ : Checker F) : Checker F :=
  { σ with
    diagnostics := σ.diagnostics ++ T.reports σ.toContext e
    visits := σ.visits ++ [⟨e, σ.toContext⟩] }

def bind (locals : List String) (σ : Checker F) : Checker F :=
  { σ with currentLocals := σ.currentLocals ∪ locals.toFinset }

/-- `self.current_locals = saved` -/
def restoreLocals (σ saved : Checker F) : Checker F := { σ with currentLocals := saved.currentLocals }

def pushScope (scope : CapabilityScope) (σ : Checker F) : Checker F :=
  { σ with scopeStack := scope :: σ.scopeStack }

def popScope (σ : Checker F) : Checker F := { σ with scopeStack := σ.scopeStack.tail }

/-- A lambda's parameters are locals of its body, and may hold function values there. -/
def enterLambda (params : List Param) (σ : Checker F) : Checker F :=
  { σ with
    currentLocals := σ.currentLocals ∪ paramNames params
    currentFnTypedParams := σ.currentFnTypedParams ∪ paramNames params
    transparentLambdaParams := σ.transparentLambdaParams ∪ paramNames params }

def leaveLambda (σ saved : Checker F) : Checker F :=
  { σ with
    currentLocals := saved.currentLocals
    currentFnTypedParams := saved.currentFnTypedParams
    transparentLambdaParams := saved.transparentLambdaParams }

def deniedCaps (denied : List String) : List Capability := denied.filterMap Capability.fromStr

/-- The scope of a `deny!` block. -/
def narrowed (denied : List String) (scopes : List CapabilityScope) : CapabilityScope where
  capabilities :=
    ((scopes.head?.map CapabilityScope.capabilities).getD ∅).without (deniedCaps denied)
  annotated := true

def denyWarning (denied : List String) (span : Span) : List Diagnostic :=
  if deniedCaps denied = [] then
    [⟨false, "W0500", "deny!(" ++ ", ".intercalate denied
      ++ ") names no recognized capability; the block has no effect", span⟩]
  else []

mutual

def checkExpr : Expr → Checker F → Checker F
  | e@(.fnCall callee args _), σ =>
    let σ := σ.enter T e
    checkExprs args (if isIdentifier callee then σ else checkExpr callee σ)
  | e@(.methodCall object _ args _), σ => checkExprs args (checkExpr object (σ.enter T e))
  | e@(.staticMethodCall _ _ args _), σ => checkExprs args (σ.enter T e)
  | e@(.fieldAccess object _ _), σ => checkExpr object (σ.enter T e)
  | e@(.indexAccess object index _), σ => checkExpr index (checkExpr object (σ.enter T e))
  | e@(.binaryOp _ left right _), σ => checkExpr right (checkExpr left (σ.enter T e))
  | e@(.unaryOp _ operand _), σ => checkExpr operand (σ.enter T e)
  | e@(.arrayLiteral elements _), σ => checkExprs elements (σ.enter T e)
  | e@(.tupleLiteral elements _), σ => checkExprs elements (σ.enter T e)
  | e@(.mapLiteral entries _), σ => checkEntries entries (σ.enter T e)
  | e@(.structLiteral _ fields _), σ => checkFields fields (σ.enter T e)
  | e@(.lambda params _ body _), σ =>
    let σ := σ.enter T e
    (checkExpr body (σ.enterLambda params)).leaveLambda σ
  | e@(.ifExpr condition thenBranch elseBranch _), σ =>
    checkBlockOpt elseBranch (checkBlock thenBranch (checkExpr condition (σ.enter T e)))
  | e@(.matchExpr subject arms _), σ => checkArms arms (checkExpr subject (σ.enter T e))
  | e@(.pipeExpr left right _), σ =>
    let σ := checkExpr left (σ.enter T e)
    if isIdentifier right then σ else checkExpr right σ
  | e@(.borrow inner _ _), σ => checkExpr inner (σ.enter T e)
  | e@(.deref inner _), σ => checkExpr inner (σ.enter T e)
  | e@(.sharedExpr inner _), σ => checkExpr inner (σ.enter T e)
  | e@(.moveExpr inner _), σ => checkExpr inner (σ.enter T e)
  | e@(.weakExpr inner _), σ => checkExpr inner (σ.enter T e)
  | e@(.comptimeBlock body _), σ => checkBlock body (σ.enter T e)
  | e@(.quantumBlock body _), σ => checkBlock body (σ.enter T e)
  | e@(.unsafeBlock body _), σ => checkBlock body (σ.enter T e)
  | e@(.cast inner _ _), σ => checkExpr inner (σ.enter T e)
  | e@(.block block _), σ => checkBlock block (σ.enter T e)
  | e@(.await value _), σ => checkExpr value (σ.enter T e)
  | e@(.rangeExpr start stop _ _), σ => checkExprOpt stop (checkExprOpt start (σ.enter T e))
  | e@(.interpolatedString parts _), σ => checkParts parts (σ.enter T e)
  | e@(.identifier ..), σ | e@(.intLiteral ..), σ | e@(.floatLiteral ..), σ
  | e@(.stringLiteral ..), σ | e@(.charLiteral ..), σ | e@(.boolLiteral ..), σ
  | e@(.noneLiteral ..), σ => σ.enter T e

def checkExprOpt : Option Expr → Checker F → Checker F
  | none, σ => σ
  | some e, σ => checkExpr e σ

def checkExprs : List Expr → Checker F → Checker F
  | [], σ => σ
  | e :: es, σ => checkExprs es (checkExpr e σ)

def checkEntries : List (Expr × Expr) → Checker F → Checker F
  | [], σ => σ
  | (k, v) :: entries, σ => checkEntries entries (checkExpr v (checkExpr k σ))

def checkFields : List (String × Expr) → Checker F → Checker F
  | [], σ => σ
  | (_, e) :: fields, σ => checkFields fields (checkExpr e σ)

def checkParts : List StringPart → Checker F → Checker F
  | [], σ => σ
  | .literal _ :: parts, σ => checkParts parts σ
  | .expr e :: parts, σ => checkParts parts (checkExpr e σ)

def checkArms : List MatchArm → Checker F → Checker F
  | [], σ => σ
  | .mk _ guard body _ :: arms, σ => checkArms arms (checkExprOpt guard (checkExpr body σ))

/-- The bindings of a block end with it. -/
def checkBlock : Block → Checker F → Checker F
  | .mk stmts _, σ => (checkStmts stmts σ).restoreLocals σ

def checkBlockOpt : Option Block → Checker F → Checker F
  | none, σ => σ
  | some b, σ => checkBlock b σ

def checkStmts : List Stmt → Checker F → Checker F
  | [], σ => σ
  | s :: stmts, σ => checkStmts stmts (checkStmt s σ)

def checkElifs : List (Expr × Block) → Checker F → Checker F
  | [], σ => σ
  | (cond, block) :: elifs, σ => checkElifs elifs (checkBlock block (checkExpr cond σ))

def checkBranches : List SelectBranch → Checker F → Checker F
  | [], σ => σ
  | .mk _ channel body _ :: branches, σ =>
    checkBranches branches (checkBlock body (checkExpr channel σ))

def checkTimeout : Option SelectTimeout → Checker F → Checker F
  | none, σ => σ
  | some (.mk durationMs body _), σ => checkBlock body (checkExpr durationMs σ)

def checkStmt : Stmt → Checker F → Checker F
  | .letStmt name _ _ value pattern _, σ =>
    -- The name is bound after its initializer has been checked.
    (checkExprOpt value σ).bind (name :: optionPatternNames pattern)
  | .assign target _ value _, σ => checkExpr value (checkExpr target σ)
  | .returnStmt value _, σ => checkExprOpt value σ
  | .ifStmt condition thenBlock elifClauses elseBlock _, σ =>
    checkBlockOpt elseBlock (checkElifs elifClauses (checkBlock thenBlock (checkExpr condition σ)))
  | .forStmt _ pattern iterable body _, σ =>
    let σ := checkExpr iterable σ
    (checkBlock body (σ.bind (patternNames pattern))).restoreLocals σ
  | .whileStmt condition body _, σ => checkBlock body (checkExpr condition σ)
  | .exprStmt e _, σ => checkExpr e σ
  | .spawn e _, σ => checkExpr e σ
  | .tryCatch tryBlock catchName catchBlock _, σ =>
    let σ := checkBlock tryBlock σ
    (checkBlock catchBlock (σ.bind [catchName])).restoreLocals σ
  | .throwStmt e _, σ => checkExpr e σ
  | .select branches timeout _, σ => checkTimeout timeout (checkBranches branches σ)
  | .denyBlock denied body span, σ =>
    let σ := σ.report (denyWarning denied span)
    (checkBlock body (σ.pushScope (narrowed denied σ.scopeStack))).popScope
  | .breakStmt _, σ => σ
  | .continueStmt _, σ => σ

end

end Checker

/-! ## Declarations -/

def CapabilitySet.fromAnnotations (annotations : List Annotation) : CapabilitySet :=
  ((annotations.filter fun a => a.name = "capabilities").flatMap fun a =>
    a.args.filterMap Capability.fromStr).toFinset

def hasCapabilitiesAnnotation (annotations : List Annotation) : Bool :=
  annotations.any fun a => a.name = "capabilities"

/-- `validate_capability_annotations` -/
def unknownCapabilities (annotations : List Annotation) : List Diagnostic :=
  (annotations.filter fun a => a.name = "capabilities").flatMap fun a =>
    (a.args.filter fun arg => (Capability.fromStr arg).isNone).map fun arg =>
      ⟨false, "W-CAP-UNKNOWN", "unknown capability `" ++ arg ++ "` in @capabilities annotation",
        a.span⟩

/-- What a declaration inside a scope may not add. -/
def attenuation (what name : String) (caps : CapabilitySet) (span : Span) :
    Option CapabilityScope → List Diagnostic
  | none => []
  | some parent =>
    if caps.isSubsetOf parent.capabilities then []
    else [⟨true, "E0503", what ++ " `" ++ name ++ "` exceeds parent capabilities: ["
      ++ names (caps.excessOver parent.capabilities) ++ "]", span⟩]

/-- The scope that a function's body is checked in. -/
def Tables.functionScope {F : Type} (T : Tables F) (name : String)
    (annotations : List Annotation) : CapabilityScope :=
  let caps := CapabilitySet.fromAnnotations annotations
  let annotated := hasCapabilitiesAnnotation annotations
  match T.mode with
  | .permissive => ⟨caps, annotated⟩
  | .strict => ⟨caps, true⟩
  | .inferred =>
    if annotated ∨ name = "main" then ⟨caps, true⟩
    else ⟨(T.fnCapabilities name).getD ∅, true⟩

namespace Checker

variable {F : Type} (T : Tables F)

/-- Checks a body in a scope of its own. -/
def inScope (scope : CapabilityScope) (body : Checker F → Checker F) (σ : Checker F) : Checker F :=
  let entered := σ.pushScope scope
  let checked :=
    body { entered with currentFnEntryScopeDepth := entered.scopeStack.length }
  { checked with
    currentFnEntryScopeDepth := σ.currentFnEntryScopeDepth
    scopeStack := checked.scopeStack.tail }

def checkFunction (name : String) (annotations : List Annotation) (body : Option Block)
    (span : Span) (σ : Checker F) : Checker F :=
  let caps := CapabilitySet.fromAnnotations annotations
  let σ := σ.report (unknownCapabilities annotations)
  let σ := σ.report (attenuation "function" name caps span σ.scopeStack.head?)
  σ.inScope (T.functionScope name annotations) (checkBlockOpt T body)

def fnTypedNames (params : List Param) : Finset String :=
  ((params.filter fun p => T.isFnBearingType (paramType p)).map paramName).toFinset

/-- The locals are not set here: those of the last function have been cleared. -/
def checkHandler (handler : MessageHandler) (σ : Checker F) : Checker F :=
  let checked := checkBlock T handler.body
    { σ with
      currentFnTypedParams := fnTypedNames T handler.params
      frame := T.handlerFrame handler }
  { checked with currentFnTypedParams := ∅, frame := T.emptyFrame }

def checkHandlers : List MessageHandler → Checker F → Checker F
  | [], σ => σ
  | handler :: handlers, σ => checkHandlers handlers (checkHandler T handler σ)

def checkActor (name : String) (annotations : List Annotation) (stateFields : List StructField)
    (handlers : List MessageHandler) (σ : Checker F) : Checker F :=
  let caps := CapabilitySet.fromAnnotations annotations
  let σ := σ.report (unknownCapabilities annotations)
  let σ := σ.report (attenuation "actor" name caps
    ((annotations.head?.map Annotation.span).getD ⟨0, 0, 0⟩) σ.scopeStack.head?)
  let fnFields :=
    ((stateFields.filter fun f => T.isFnBearingType (some f.ty)).map StructField.name).toFinset
  let scope := ⟨caps, hasCapabilitiesAnnotation annotations || T.mode ≠ .permissive⟩
  σ.inScope scope fun entered =>
    { checkHandlers T handlers { entered with currentActorFnStateFields := fnFields } with
      currentActorFnStateFields := σ.currentActorFnStateFields }

mutual

def checkDecl : Decl → Checker F → Checker F
  | .function name _ params _ body _ _ annotations _ span, σ =>
    let checked := checkFunction T name annotations body span
      { σ with
        currentLocals := paramNames params
        currentFnTypedParams := fnTypedNames T params
        frame := T.functionFrame params body }
    { checked with currentLocals := ∅, currentFnTypedParams := ∅, frame := T.emptyFrame }
  | .actor name stateFields handlers annotations _ _, σ =>
    checkActor T name annotations stateFields handlers σ
  | .externBlock _ items _ span, σ =>
    let missing : List Diagnostic :=
      match σ.currentCaps with
      | some caps =>
        if caps.has .ffi then []
        else [⟨true, "E0506", "extern block requires `ffi` capability", span⟩]
      | none => []
    checkDecls items (σ.report missing)
  | .impl _ _ _ methods _ _, σ => checkDecls methods σ
  | .trait _ _ methods _ _ _, σ => checkDecls methods σ
  | .importDecl path _ _, σ =>
    let missing : List Diagnostic :=
      match T.requiredCapabilityForPath path.segments, σ.currentCaps with
      | some cap, some caps =>
        if caps.has cap then []
        else [⟨true, "E0501", "import of `" ++ "::".intercalate path.segments ++ "` requires `"
          ++ cap.display ++ "` capability", path.span⟩]
      | _, _ => []
    σ.report missing
  | .const _ _ value _ _ _ _, σ =>
    -- A global's initializer runs under the authority of `main`.
    let scope := ⟨(T.fnCapabilities "main").getD ∅, T.mode ≠ .permissive⟩
    (checkExpr T value (σ.pushScope scope)).popScope
  | .struct .., σ | .enum .., σ | .typeAlias .., σ => σ

def checkDecls : List Decl → Checker F → Checker F
  | [], σ => σ
  | d :: decls, σ => checkDecls decls (checkDecl d σ)

end

/-- The state the walk starts in. -/
def start : Checker F where
  scopeStack := []
  currentFnEntryScopeDepth := 0
  currentLocals := ∅
  currentFnTypedParams := ∅
  transparentLambdaParams := ∅
  currentActorFnStateFields := ∅
  frame := T.emptyFrame
  diagnostics := []
  visits := []

/-- The walk over a module. -/
def checkModule (module : Module) : Checker F := checkDecls T module.declarations (start T)

end Checker

end Kryos.Capabilities

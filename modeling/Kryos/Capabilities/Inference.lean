import Kryos.Capabilities.FnBearing
import Kryos.Capabilities.LexicalScopes
import Kryos.Lib.Sweep
import Mathlib.Data.Finset.Option

/-!
# Capability inference

A function without an annotation is checked against the capabilities that its body was found to
need. They are collected by a traversal of their own, which goes over the bodies again and again
until the table of the functions' capabilities does not grow any more. The names are looked up in
the tables that the enforcement walk uses too, but the traversal keeps no locals.

What the checker knows of function values is an arbitrary `FunctionValues`, except where a call
crosses the state of an actor.

## Main results

* `collects_block` — what is collected in a body, place by place
* `checkedTables_spec` — the table that the walk is given
-/

namespace Kryos.Capabilities

open Kryos.Ast Checker

abbrev CapabilityMap := Sweep.Table String Capability

/-- What is known of the local names of a body. -/
structure Frame (L : Type) where
  /-- Locals that stand for a part of an actor's state, with the field where it can be named. -/
  stateAliases : String → Option (Option String)
  locals : L

/-- The analyses of function values. `R` is what is known of the closures that functions return,
and `L` what is known of the closures and containers that the locals of a body hold. -/
structure FunctionValues (R L : Type) where
  /-- The function calls one of its parameters, or passes it on to one that does. -/
  isHot : String → Bool
  hotCaps : R → CapabilityMap → Context (Frame L) → String → List Expr → Bool → CapabilitySet
  /-- The method is known to be a field that holds a function. -/
  isFieldCall : L → Expr → String → Bool
  fieldCaps : R → CapabilityMap → Context (Frame L) → Expr → String → CapabilitySet
  directInvokeCaps : R → CapabilityMap → Context (Frame L) → Expr → CapabilitySet
  /-- The local is known to hold a closure. -/
  isKnownLocal : L → String → Bool
  noReturns : R
  fnReturnClosureCaps : CapabilityMap → R
  localsOf : R → CapabilityMap → Finset String → Block → L
  noLocals : L
  stateAliases : Block → String → Option (Option String)

/-- A module to be checked, with the tables of the builtins. -/
structure Analysis (R L : Type) extends FunctionValues R L where
  declarations : List Decl
  mode : CapabilityMode
  requiredCapabilityForBuiltin : String → Option Capability
  requiredCapabilityForNativeSymbol : String → Option Capability
  isKnownBuiltinName : String → Bool

/-! ## The declared names -/

/-- A function that the inference sees. -/
structure FunctionDecl where
  name : String
  annotated : Bool
  body : Block
  params : List Param

mutual

def declExternFns : Decl → List String
  | .externBlock _ items _ _ => items.filterMap Decl.functionName
  | .impl _ _ _ methods _ _ => collectExternFns methods
  | .trait _ _ methods _ _ _ => collectExternFns methods
  | _ => []

def collectExternFns : List Decl → List String
  | [] => []
  | d :: ds => declExternFns d ++ collectExternFns ds

end

mutual

def declFunctions : Decl → List FunctionDecl
  | .function name _ params _ (some body) _ _ annotations _ _ =>
    [⟨name, hasCapabilitiesAnnotation annotations, body, params⟩]
  | .impl _ _ _ methods _ _ => collectFunctions methods
  | .trait _ _ methods _ _ _ => collectFunctions methods
  | _ => []

/-- The functions and methods with a body. -/
def collectFunctions : List Decl → List FunctionDecl
  | [] => []
  | d :: ds => declFunctions d ++ collectFunctions ds

end

/-- Adds to what a name is known to need. -/
def CapabilityMap.join (m : CapabilityMap) (name : String) (caps : CapabilitySet) : CapabilityMap :=
  Function.update m name
    (some (match m name with
      | some existing => existing ∪ caps
      | none => caps))

mutual

def declCapabilityMap : Decl → CapabilityMap → CapabilityMap
  | .function name _ _ _ _ _ _ annotations _ _, m =>
    if hasCapabilitiesAnnotation annotations then
      m.join name (CapabilitySet.fromAnnotations annotations)
    else m
  | .impl _ _ _ methods _ _, m => buildFnCapabilityMap methods m
  | .trait _ _ methods _ _ _, m => buildFnCapabilityMap methods m
  | .actor _ _ handlers annotations _ _, m =>
    handlers.foldl (fun m h => m.join h.name (CapabilitySet.fromAnnotations annotations)) m
  | _, m => m

/-- What is declared. The methods go by their bare names. -/
def buildFnCapabilityMap : List Decl → CapabilityMap → CapabilityMap
  | [], m => m
  | d :: ds, m => buildFnCapabilityMap ds (declCapabilityMap d m)

end

/-- A name declared by the inference's own count and by an annotation has both. -/
def CapabilityMap.merge (declared inferred : CapabilityMap) : CapabilityMap := fun name =>
  match inferred name with
  | none => declared name
  | some caps =>
    match declared name with
    | some existing => some (existing ∪ caps)
    | none => some caps

/-- A path into `std`. -/
def requiredCapabilityForPath : List String → Option Capability
  | "std" :: name :: _ =>
    match name with
    | "net" => some .net
    | "io" | "fs" => some .io
    | "ffi" => some .ffi
    | "compute" => some .compute
    | "crypto" => some .crypto
    | "process" => some .process
    | "env" => some .env
    | "term" => some .term
    | "db" => some .db
    | "time" => some .time
    | _ => none
  | _ => none

/-- A call through `self`, or through a local that stands for a part of it, calls whatever a handler
has put into the field. -/
def resolveActorSelfFieldInvokeCaps {L : Type} (ctx : Context (Frame L)) (object : Expr)
    (method : String) : CapabilitySet :=
  let touched (field : String) : CapabilitySet :=
    if field ∈ ctx.currentActorFnStateFields then {.all} else ∅
  match decomposeContainerPath object with
  | none => ∅
  | some (root, path) =>
    if root = "self" then
      match path.head? with
      | some (.field f) => touched f
      | some .index => {.all}
      | none => touched method
    else
      match ctx.frame.stateAliases root with
      | some none => {.all}
      | some (some field) => touched field
      | none => ∅

namespace Analysis

variable {R L : Type} (A : Analysis R L)

/-- The tables of the checker, when this is known of the closures that functions return, and this of
the capabilities of the functions. -/
def tables (returns : R) (w : CapabilityMap) : Tables (Frame L) where
  mode := A.mode
  requiredCapabilityForPath := requiredCapabilityForPath
  requiredCapabilityForBuiltin := A.requiredCapabilityForBuiltin
  requiredCapabilityForNativeSymbol := A.requiredCapabilityForNativeSymbol
  isKnownBuiltinName := A.isKnownBuiltinName
  definedFns := (A.declarations.filterMap Decl.functionName).toFinset
  actorNames := (A.declarations.filterMap fun
    | .actor name .. => some name
    | _ => none).toFinset
  enumVariantNames := (A.declarations.flatMap fun
    | .enum _ _ variants .. => variants.map EnumVariant.name
    | _ => []).toFinset
  externFns := (collectExternFns A.declarations).toFinset
  declaredTypeNames := (A.declarations.filterMap fun
    | .struct name .. => some name
    | .enum name .. => some name
    | _ => none).toFinset
  fnCapabilities := w
  isFnBearingType := (Structs.ofDecls A.declarations).isFnBearingType
  functionFrame := fun params body =>
    let own := ((params.filter fun p =>
      (Structs.ofDecls A.declarations).isFnBearingType (paramType p)).map paramName).toFinset
    ⟨fun _ => none, (body.map (A.localsOf returns w own)).getD A.noLocals⟩
  handlerFrame := fun handler =>
    let own := ((handler.params.filter fun p =>
      (Structs.ofDecls A.declarations).isFnBearingType (paramType p)).map paramName).toFinset
    ⟨A.stateAliases handler.body, A.localsOf returns w own handler.body⟩
  emptyFrame := ⟨fun _ => none, A.noLocals⟩
  accumulateHotExtraCaps := fun ctx name args isMethodOrStatic =>
    if A.isHot name then A.hotCaps returns w ctx name args isMethodOrStatic else ∅
  resolveMethodFieldInvokeCaps := fun ctx object method =>
    if A.isFieldCall ctx.frame.locals object method then A.fieldCaps returns w ctx object method
    else ∅
  resolveActorSelfFieldInvokeCaps := resolveActorSelfFieldInvokeCaps
  resolveDirectInvokeCaps := A.directInvokeCaps returns w

end Analysis

/-! ## The traversal -/

section Collect

variable {L : Type} (T : Tables (Frame L)) (isKnownLocal : L → String → Bool)
variable (ctx : Context (Frame L))

/-- The callee is a local that holds a function, as far as that is known without the scopes. -/
def calleeIsLocal (name : String) : Bool :=
  name ∈ ctx.currentFnTypedParams || isKnownLocal ctx.frame.locals name

def Tables.isGlobalName {F : Type} (T : Tables F) (name : String) : Bool :=
  name ∈ T.definedFns || name ∈ T.actorNames || name ∈ T.enumVariantNames ||
    T.isKnownBuiltinName name || name ∈ T.externFns

/-- What a call of a bare name needs. -/
def collectName (callee : Expr) (name : String) (args : List Expr) : CapabilitySet :=
  let shadowsUserFn := name ∈ T.definedFns
  let path := if shadowsUserFn then ∅ else (T.requiredCapabilityForPath [name]).toFinset
  let builtin := if shadowsUserFn then ∅ else (T.requiredCapabilityForBuiltin name).toFinset
  let calleeIsNamed := !calleeIsLocal isKnownLocal ctx name && T.isGlobalName name
  path ∪ builtin ∪ (T.requiredCapabilityForExternCall name args).toFinset ∪
    (T.fnCapabilities name).getD ∅ ∪ T.accumulateHotExtraCaps ctx name args false ∪
    (if calleeIsNamed then ∅ else T.resolveDirectInvokeCaps ctx callee)

/-- What a call needs by its callee. -/
def collectCallee (callee : Expr) (args : List Expr) : CapabilitySet :=
  match resolvePath callee with
  | [name] => collectName T isKnownLocal ctx callee name args
  | segments =>
    (T.requiredCapabilityForPath segments).toFinset ∪
      (if segments.length ≤ 1 then T.resolveDirectInvokeCaps ctx callee else ∅)

/-- `builtin_value_caps` of a name that is not shadowed. -/
def collectValue (name : String) : CapabilitySet :=
  if name ∈ T.definedFns then ∅ else (T.requiredCapabilityForBuiltin name).toFinset

mutual

def collectCapsExpr : Expr → CapabilitySet
  | .fnCall callee args _ =>
    collectCallee T isKnownLocal ctx callee args ∪ (collectCapsExpr callee ∪ collectCapsExprs args)
  | .methodCall object method args _ =>
    (T.fnCapabilities method).getD ∅ ∪ T.accumulateHotExtraCaps ctx method args true ∪
      T.resolveMethodFieldInvokeCaps ctx object method ∪
      (collectCapsExpr object ∪ collectCapsExprs args)
  | .staticMethodCall _ method args _ =>
    (T.fnCapabilities method).getD ∅ ∪ T.accumulateHotExtraCaps ctx method args true ∪
      collectCapsExprs args
  | .fieldAccess object _ _ => collectCapsExpr object
  | .indexAccess object index _ => collectCapsExpr object ∪ collectCapsExpr index
  | .binaryOp _ left right _ => collectCapsExpr left ∪ collectCapsExpr right
  | .unaryOp _ operand _ => collectCapsExpr operand
  | .arrayLiteral elements _ | .tupleLiteral elements _ => collectCapsExprs elements
  | .mapLiteral entries _ => collectCapsEntries entries
  | .structLiteral _ fields _ => collectCapsFields fields
  | .lambda _ _ body _ => collectCapsExpr body
  | .ifExpr condition thenBranch elseBranch _ =>
    collectCapsExpr condition ∪ (collectCapsBlock thenBranch ∪ collectCapsBlockOpt elseBranch)
  | .matchExpr subject arms _ => collectCapsExpr subject ∪ collectCapsArms arms
  | .pipeExpr left right _ => collectCapsExpr left ∪ collectCapsExpr right
  | .borrow inner _ _ | .deref inner _ | .sharedExpr inner _ | .moveExpr inner _
  | .weakExpr inner _ => collectCapsExpr inner
  | .comptimeBlock body _ | .quantumBlock body _ | .unsafeBlock body _ => collectCapsBlock body
  | .cast inner _ _ => collectCapsExpr inner
  | .block block _ => collectCapsBlock block
  | .await value _ => collectCapsExpr value
  | .rangeExpr start stop _ _ => collectCapsExprOpt start ∪ collectCapsExprOpt stop
  | .interpolatedString parts _ => collectCapsParts parts
  | .identifier name _ => collectValue T name
  | .intLiteral .. | .floatLiteral .. | .stringLiteral .. | .charLiteral .. | .boolLiteral ..
  | .noneLiteral .. => ∅

def collectCapsExprOpt : Option Expr → CapabilitySet
  | none => ∅
  | some e => collectCapsExpr e

def collectCapsExprs : List Expr → CapabilitySet
  | [] => ∅
  | e :: es => collectCapsExpr e ∪ collectCapsExprs es

def collectCapsEntries : List (Expr × Expr) → CapabilitySet
  | [] => ∅
  | (k, v) :: entries => collectCapsExpr k ∪ (collectCapsExpr v ∪ collectCapsEntries entries)

def collectCapsFields : List (String × Expr) → CapabilitySet
  | [] => ∅
  | (_, e) :: fields => collectCapsExpr e ∪ collectCapsFields fields

def collectCapsParts : List StringPart → CapabilitySet
  | [] => ∅
  | .literal _ :: parts => collectCapsParts parts
  | .expr e :: parts => collectCapsExpr e ∪ collectCapsParts parts

def collectCapsArms : List MatchArm → CapabilitySet
  | [] => ∅
  | .mk _ guard body _ :: arms =>
    collectCapsExpr body ∪ (collectCapsExprOpt guard ∪ collectCapsArms arms)

def collectCapsBlock : Block → CapabilitySet
  | .mk stmts _ => collectCapsStmts stmts

def collectCapsBlockOpt : Option Block → CapabilitySet
  | none => ∅
  | some b => collectCapsBlock b

def collectCapsStmts : List Stmt → CapabilitySet
  | [] => ∅
  | s :: stmts => collectCapsStmt s ∪ collectCapsStmts stmts

def collectCapsElifs : List (Expr × Block) → CapabilitySet
  | [] => ∅
  | (cond, block) :: elifs =>
    collectCapsExpr cond ∪ (collectCapsBlock block ∪ collectCapsElifs elifs)

def collectCapsBranches : List SelectBranch → CapabilitySet
  | [] => ∅
  | .mk _ channel body _ :: branches =>
    collectCapsExpr channel ∪ (collectCapsBlock body ∪ collectCapsBranches branches)

def collectCapsTimeout : Option SelectTimeout → CapabilitySet
  | none => ∅
  | some (.mk durationMs body _) => collectCapsExpr durationMs ∪ collectCapsBlock body

def collectCapsStmt : Stmt → CapabilitySet
  | .letStmt _ _ _ value _ _ => collectCapsExprOpt value
  | .assign target _ value _ => collectCapsExpr target ∪ collectCapsExpr value
  | .returnStmt value _ => collectCapsExprOpt value
  | .ifStmt condition thenBlock elifClauses elseBlock _ =>
    collectCapsExpr condition ∪ (collectCapsBlock thenBlock ∪ (collectCapsElifs elifClauses ∪
      collectCapsBlockOpt elseBlock))
  | .forStmt _ _ iterable body _ => collectCapsExpr iterable ∪ collectCapsBlock body
  | .whileStmt condition body _ => collectCapsExpr condition ∪ collectCapsBlock body
  | .exprStmt e _ => collectCapsExpr e
  | .spawn e _ => collectCapsExpr e
  | .tryCatch tryBlock _ catchBlock _ => collectCapsBlock tryBlock ∪ collectCapsBlock catchBlock
  | .throwStmt e _ => collectCapsExpr e
  | .select branches timeout _ => collectCapsBranches branches ∪ collectCapsTimeout timeout
  | .denyBlock _ body _ => collectCapsBlock body
  | .breakStmt _ | .continueStmt _ => ∅

end

/-! ## Place by place -/

/-- What an identifier needs that the reading of a call or of a pipe passes over. -/
def calleeValue : Expr → CapabilitySet
  | .identifier name _ => collectValue T name
  | _ => ∅

/-- What is collected at an expression itself. -/
def placeCaps : Expr → CapabilitySet
  | .fnCall callee args _ => collectCallee T isKnownLocal ctx callee args ∪ calleeValue T callee
  | .methodCall object method args _ =>
    (T.fnCapabilities method).getD ∅ ∪ T.accumulateHotExtraCaps ctx method args true ∪
      T.resolveMethodFieldInvokeCaps ctx object method
  | .staticMethodCall _ method args _ =>
    (T.fnCapabilities method).getD ∅ ∪ T.accumulateHotExtraCaps ctx method args true
  | .pipeExpr _ right _ => calleeValue T right
  | .identifier name _ => collectValue T name
  | _ => ∅

/-- The set is what is collected at these places. -/
def Collects (s : CapabilitySet) (ps : List (Expr × Lexical)) : Prop :=
  ∀ r, r ∈ s ↔ ∃ p ∈ ps, r ∈ placeCaps T isKnownLocal ctx p.1

namespace Collects

variable {T isKnownLocal ctx} {s t : CapabilitySet} {ps qs : List (Expr × Lexical)} {c : Lexical}

theorem empty : Collects T isKnownLocal ctx ∅ [] := fun r =>
  ⟨fun h => absurd h (Finset.notMem_empty r), fun ⟨_, hp, _⟩ => absurd hp List.not_mem_nil⟩

theorem union (hs : Collects T isKnownLocal ctx s ps) (ht : Collects T isKnownLocal ctx t qs) :
    Collects T isKnownLocal ctx (s ∪ t) (ps ++ qs) := by
  intro r
  rw [Finset.mem_union, hs r, ht r]
  constructor
  · rintro (⟨p, hp, hr⟩ | ⟨p, hp, hr⟩)
    · exact ⟨p, List.mem_append_left _ hp, hr⟩
    · exact ⟨p, List.mem_append_right _ hp, hr⟩
  · rintro ⟨p, hp, hr⟩
    exact (List.mem_append.mp hp).imp (fun hp => ⟨p, hp, hr⟩) fun hp => ⟨p, hp, hr⟩

theorem into (e : Expr) (hs : Collects T isKnownLocal ctx s ps) :
    Collects T isKnownLocal ctx (placeCaps T isKnownLocal ctx e ∪ s) ((e, c) :: ps) := by
  intro r
  rw [Finset.mem_union, hs r, List.exists_mem_cons_iff]

/-- At most expressions nothing is collected. -/
theorem plain {e : Expr} (he : placeCaps T isKnownLocal ctx e = ∅)
    (hs : Collects T isKnownLocal ctx s ps) : Collects T isKnownLocal ctx s ((e, c) :: ps) := by
  have hinto := into (c := c) e hs
  rwa [he, Finset.empty_union] at hinto

theorem identifier (name : String) (span : Span) :
    Collects T isKnownLocal ctx (collectValue T name) [(.identifier name span, c)] := by
  intro r
  rw [List.exists_mem_cons_iff]
  exact ⟨.inl, fun h => h.resolve_right fun ⟨_, hp, _⟩ => absurd hp List.not_mem_nil⟩

/-- An identifier in the place of a callee has no place of its own. -/
theorem callee {e : Expr}
    (hs : Collects T isKnownLocal ctx (collectCapsExpr T isKnownLocal ctx e) ps) :
    ∃ s, collectCapsExpr T isKnownLocal ctx e = calleeValue T e ∪ s ∧
      Collects T isKnownLocal ctx s (if isIdentifier e then [] else ps) := by
  cases e with
  | identifier name span => exact ⟨∅, (Finset.union_empty _).symm, empty⟩
  | _ => exact ⟨_, (Finset.empty_union _).symm, hs⟩

theorem call {args : List Expr} {span : Span} {e : Expr}
    (he : Collects T isKnownLocal ctx (collectCapsExpr T isKnownLocal ctx e) ps)
    (hargs : Collects T isKnownLocal ctx t qs) :
    Collects T isKnownLocal ctx
      (collectCallee T isKnownLocal ctx e args ∪ (collectCapsExpr T isKnownLocal ctx e ∪ t))
      ((.fnCall e args span, c) :: ((if isIdentifier e then [] else ps) ++ qs)) := by
  obtain ⟨s, heq, hs⟩ := callee he
  have hinto := into (c := c) (.fnCall e args span) (hs.union hargs)
  rw [placeCaps] at hinto
  rwa [heq, Finset.union_assoc, ← Finset.union_assoc]

theorem pipe {left e : Expr} {span : Span} (hleft : Collects T isKnownLocal ctx s ps)
    (he : Collects T isKnownLocal ctx (collectCapsExpr T isKnownLocal ctx e) qs) :
    Collects T isKnownLocal ctx (s ∪ collectCapsExpr T isKnownLocal ctx e)
      ((.pipeExpr left e span, c) :: (ps ++ (if isIdentifier e then [] else qs))) := by
  obtain ⟨t, heq, ht⟩ := callee he
  have hinto := into (c := c) (.pipeExpr left e span) (hleft.union ht)
  rw [placeCaps] at hinto
  rwa [heq, Finset.union_left_comm]

end Collects

variable (armNames : Pattern → List String)

mutual

theorem collects_expr : (e : Expr) → (c : Lexical) → Collects T isKnownLocal ctx
    (collectCapsExpr T isKnownLocal ctx e) (lexicalExpr armNames c e)
  | .fnCall callee args _, c => (collects_expr callee c).call (collects_exprs args c)
  | .methodCall object method args span, c =>
    .into (.methodCall object method args span)
      ((collects_expr object c).union (collects_exprs args c))
  | .staticMethodCall typeName method args span, c =>
    .into (.staticMethodCall typeName method args span) (collects_exprs args c)
  | .fieldAccess object _ _, c => .plain rfl (collects_expr object c)
  | .indexAccess object index _, c =>
    .plain rfl ((collects_expr object c).union (collects_expr index c))
  | .binaryOp _ left right _, c => .plain rfl ((collects_expr left c).union (collects_expr right c))
  | .unaryOp _ operand _, c => .plain rfl (collects_expr operand c)
  | .arrayLiteral elements _, c | .tupleLiteral elements _, c =>
    .plain rfl (collects_exprs elements c)
  | .mapLiteral entries _, c => .plain rfl (collects_entries entries c)
  | .structLiteral _ fields _, c => .plain rfl (collects_fields fields c)
  | .lambda params _ body _, c => .plain rfl (collects_expr body (c.bind (params.map paramName)))
  | .ifExpr condition thenBranch elseBranch _, c =>
    .plain rfl ((collects_expr condition c).union ((collects_block thenBranch c).union
      (collects_blockOpt elseBranch c)))
  | .matchExpr subject arms _, c =>
    .plain rfl ((collects_expr subject c).union (collects_arms arms c))
  | .pipeExpr left right _, c => (collects_expr left c).pipe (collects_expr right c)
  | .borrow inner _ _, c | .deref inner _, c | .sharedExpr inner _, c | .moveExpr inner _, c
  | .weakExpr inner _, c | .cast inner _ _, c => .plain rfl (collects_expr inner c)
  | .comptimeBlock body _, c | .quantumBlock body _, c | .unsafeBlock body _, c =>
    .plain rfl (collects_block body c)
  | .block block _, c => .plain rfl (collects_block block c)
  | .await value _, c => .plain rfl (collects_expr value c)
  | .rangeExpr start stop _ _, c =>
    .plain rfl ((collects_exprOpt start c).union (collects_exprOpt stop c))
  | .interpolatedString parts _, c => .plain rfl (collects_parts parts c)
  | .identifier name span, _ => .identifier name span
  | .intLiteral .., _ | .floatLiteral .., _ | .stringLiteral .., _ | .charLiteral .., _
  | .boolLiteral .., _ | .noneLiteral .., _ => .plain rfl .empty

theorem collects_exprOpt : (e : Option Expr) → (c : Lexical) → Collects T isKnownLocal ctx
    (collectCapsExprOpt T isKnownLocal ctx e) (lexicalExprOpt armNames c e)
  | none, _ => .empty
  | some e, c => collects_expr e c

theorem collects_exprs : (es : List Expr) → (c : Lexical) → Collects T isKnownLocal ctx
    (collectCapsExprs T isKnownLocal ctx es) (lexicalExprs armNames c es)
  | [], _ => .empty
  | e :: es, c => (collects_expr e c).union (collects_exprs es c)

theorem collects_entries : (entries : List (Expr × Expr)) → (c : Lexical) →
    Collects T isKnownLocal ctx (collectCapsEntries T isKnownLocal ctx entries)
      (lexicalEntries armNames c entries)
  | [], _ => .empty
  | (k, v) :: entries, c =>
    (collects_expr k c).union ((collects_expr v c).union (collects_entries entries c))

theorem collects_fields : (fields : List (String × Expr)) → (c : Lexical) →
    Collects T isKnownLocal ctx (collectCapsFields T isKnownLocal ctx fields)
      (lexicalFields armNames c fields)
  | [], _ => .empty
  | (_, e) :: fields, c => (collects_expr e c).union (collects_fields fields c)

theorem collects_parts : (parts : List StringPart) → (c : Lexical) → Collects T isKnownLocal ctx
    (collectCapsParts T isKnownLocal ctx parts) (lexicalParts armNames c parts)
  | [], _ => .empty
  | .literal _ :: parts, c => collects_parts parts c
  | .expr e :: parts, c => (collects_expr e c).union (collects_parts parts c)

theorem collects_arms : (arms : List MatchArm) → (c : Lexical) → Collects T isKnownLocal ctx
    (collectCapsArms T isKnownLocal ctx arms) (lexicalArms armNames c arms)
  | [], _ => .empty
  | .mk pattern guard body _ :: arms, c =>
    (collects_expr body (c.arm (armNames pattern))).union
      ((collects_exprOpt guard (c.arm (armNames pattern))).union (collects_arms arms c))

theorem collects_block : (b : Block) → (c : Lexical) → Collects T isKnownLocal ctx
    (collectCapsBlock T isKnownLocal ctx b) (lexicalBlock armNames c b)
  | .mk stmts _, c => collects_stmts stmts c

theorem collects_blockOpt : (b : Option Block) → (c : Lexical) → Collects T isKnownLocal ctx
    (collectCapsBlockOpt T isKnownLocal ctx b) (lexicalBlockOpt armNames c b)
  | none, _ => .empty
  | some b, c => collects_block b c

theorem collects_stmts : (stmts : List Stmt) → (c : Lexical) → Collects T isKnownLocal ctx
    (collectCapsStmts T isKnownLocal ctx stmts) (lexicalStmts armNames c stmts)
  | [], _ => .empty
  | s :: stmts, c => (collects_stmt s c).union (collects_stmts stmts (c.after s))

theorem collects_elifs : (elifs : List (Expr × Block)) → (c : Lexical) →
    Collects T isKnownLocal ctx (collectCapsElifs T isKnownLocal ctx elifs)
      (lexicalElifs armNames c elifs)
  | [], _ => .empty
  | (cond, block) :: elifs, c =>
    (collects_expr cond c).union ((collects_block block c).union (collects_elifs elifs c))

theorem collects_branches : (branches : List SelectBranch) → (c : Lexical) →
    Collects T isKnownLocal ctx (collectCapsBranches T isKnownLocal ctx branches)
      (lexicalBranches armNames c branches)
  | [], _ => .empty
  | .mk pattern channel body _ :: branches, c =>
    (collects_expr channel c).union ((collects_block body (c.arm [pattern])).union
      (collects_branches branches c))

theorem collects_timeout : (timeout : Option SelectTimeout) → (c : Lexical) →
    Collects T isKnownLocal ctx (collectCapsTimeout T isKnownLocal ctx timeout)
      (lexicalTimeout armNames c timeout)
  | none, _ => .empty
  | some (.mk durationMs body _), c => (collects_expr durationMs c).union (collects_block body c)

theorem collects_stmt : (s : Stmt) → (c : Lexical) → Collects T isKnownLocal ctx
    (collectCapsStmt T isKnownLocal ctx s) (lexicalStmt armNames c s)
  | .letStmt _ _ _ value _ _, c | .returnStmt value _, c => collects_exprOpt value c
  | .assign target _ value _, c => (collects_expr target c).union (collects_expr value c)
  | .ifStmt condition thenBlock elifClauses elseBlock _, c =>
    (collects_expr condition c).union ((collects_block thenBlock c).union
      ((collects_elifs elifClauses c).union (collects_blockOpt elseBlock c)))
  | .forStmt _ pattern iterable body _, c =>
    (collects_expr iterable c).union (collects_block body (c.bind (patternNames pattern)))
  | .whileStmt condition body _, c => (collects_expr condition c).union (collects_block body c)
  | .exprStmt e _, c | .spawn e _, c => collects_expr e c
  | .tryCatch tryBlock catchName catchBlock _, c =>
    (collects_block tryBlock c).union (collects_block catchBlock (c.bind [catchName]))
  | .throwStmt e _, c => collects_expr e c
  | .select branches timeout _, c =>
    (collects_branches branches c).union (collects_timeout timeout c)
  | .denyBlock denied body _, c => collects_block body (c.deny denied)
  | .breakStmt _, _ | .continueStmt _, _ => .empty

end

end Collect

/-! ## The fixpoint -/

/-- The traversal has no scope open. -/
def collectContext {L : Type} (T : Tables (Frame L)) (f : FunctionDecl) : Context (Frame L) where
  scopeStack := []
  currentFnEntryScopeDepth := 0
  currentLocals := ∅
  currentFnTypedParams := fnTypedNames T f.params
  transparentLambdaParams := ∅
  currentActorFnStateFields := ∅
  frame := T.functionFrame f.params (some f.body)

namespace Analysis

variable {R L : Type} (A : Analysis R L)

/-- What a body needs, where `working` is known of the functions. -/
def collect (returns : R) (f : FunctionDecl) (working : CapabilityMap) : CapabilitySet :=
  let T := A.tables returns working
  collectCapsBlock T A.isKnownLocal (collectContext T f) f.body

/-- The functions without an annotation. `main` is one of them. -/
def unannotated : List FunctionDecl :=
  (collectFunctions A.declarations).filter fun f => !f.annotated

def declared : CapabilityMap := buildFnCapabilityMap A.declarations fun _ => none

/-- Goes over the functions until the table does not change. -/
def computeInferredCapabilities (returns : R) : Option CapabilityMap :=
  Sweep.solve (A.unannotated.map fun f => ⟨f.name, A.collect returns f⟩) A.declared

/-- The tables that the enforcement walk is given. The closures that functions return are resolved
by a first inference, which knows of none. -/
def checkedTables : Option (Tables (Frame L)) := do
  let baseline ← A.computeInferredCapabilities A.noReturns
  let returns := A.fnReturnClosureCaps baseline
  if A.mode = .inferred then
    let inferred ← A.computeInferredCapabilities returns
    return A.tables returns (A.declared.merge inferred)
  else return A.tables returns A.declared

end Analysis

end Kryos.Capabilities

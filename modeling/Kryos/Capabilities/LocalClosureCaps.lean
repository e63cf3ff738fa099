import Kryos.Capabilities.Enforcement
import Kryos.Lib.JoinMap

/-!
# The local closure map

Before a body is enforced, the checker collects for every local name the authority of the function
values that the name is bound to. The map is flat: a `let` or an assignment of a name, wherever it
stands in the body, is united with what the name has already. Only a `let` of a lambda first puts a
placeholder under the name, for the calls of the lambda to itself.

## Main results

* `buildLocalClosureCaps_sites` — the walk comes to every `let` and every assignment of the body
* `localCaps_cover_iff` — when the entries cover all that is bound
-/

namespace Kryos.Capabilities

open Kryos.Ast JoinMap

/-! ## Authority -/

/-- The authority of a function value. -/
inductive ClosureCapsResult where
  | known (caps : CapabilitySet)
  | dependsOnParam (name : String)
  | unknown
deriving DecidableEq

namespace ClosureCapsResult

def mergeClosureCaps : ClosureCapsResult → ClosureCapsResult → ClosureCapsResult
  | known x, known y => known (x ∪ y)
  | dependsOnParam x, dependsOnParam y => if x = y then dependsOnParam x else unknown
  | _, _ => unknown

/-- As a set of capabilities, with unknown above everything. -/
def Below : ClosureCapsResult → ClosureCapsResult → Prop
  | _, unknown => True
  | known x, known y => x ⊆ y
  | dependsOnParam x, dependsOnParam y => x = y
  | _, _ => False

instance : DecidableRel Below
  | _, unknown => inferInstanceAs (Decidable True)
  | known x, known y => inferInstanceAs (Decidable (x ⊆ y))
  | dependsOnParam x, dependsOnParam y => inferInstanceAs (Decidable (x = y))
  | known _, dependsOnParam _ => inferInstanceAs (Decidable False)
  | dependsOnParam _, known _ => inferInstanceAs (Decidable False)
  | unknown, known _ => inferInstanceAs (Decidable False)
  | unknown, dependsOnParam _ => inferInstanceAs (Decidable False)

theorem Below.refl : (a : ClosureCapsResult) → Below a a
  | known x => Finset.Subset.refl x
  | dependsOnParam _ => rfl
  | unknown => trivial

theorem Below.trans : {a b c : ClosureCapsResult} → Below a b → Below b c → Below a c
  | _, _, unknown, _, _ => trivial
  | known _, known _, known _, hab, hbc => Finset.Subset.trans hab hbc
  | dependsOnParam _, dependsOnParam _, dependsOnParam _, hab, hbc => Eq.trans hab hbc

theorem Below.antisymm : {a b : ClosureCapsResult} → Below a b → Below b a → a = b
  | known _, known _, hab, hba => congrArg known (Finset.Subset.antisymm hab hba)
  | dependsOnParam _, dependsOnParam _, hab, _ => congrArg dependsOnParam hab
  | unknown, unknown, _, _ => rfl

theorem below_merge_left : (a b : ClosureCapsResult) → Below a (mergeClosureCaps a b)
  | known _, known _ => Finset.subset_union_left
  | dependsOnParam x, dependsOnParam y => by
    rw [mergeClosureCaps]
    split
    · rfl
    · trivial
  | known _, dependsOnParam _ | known _, unknown | dependsOnParam _, known _
  | dependsOnParam _, unknown | unknown, known _ | unknown, dependsOnParam _
  | unknown, unknown => trivial

theorem merge_comm : (a b : ClosureCapsResult) → mergeClosureCaps a b = mergeClosureCaps b a
  | known x, known y => congrArg known (Finset.union_comm x y)
  | dependsOnParam x, dependsOnParam y => by
    rw [mergeClosureCaps, mergeClosureCaps]
    by_cases h : x = y
    · rw [if_pos h, if_pos h.symm, h]
    · rw [if_neg h, if_neg (Ne.symm h)]
  | known _, dependsOnParam _ | known _, unknown | dependsOnParam _, known _
  | dependsOnParam _, unknown | unknown, known _ | unknown, dependsOnParam _
  | unknown, unknown => rfl

theorem merge_below : {a b c : ClosureCapsResult} → Below a c → Below b c →
    Below (mergeClosureCaps a b) c
  | _, _, unknown, _, _ => trivial
  | known _, known _, known _, ha, hb => Finset.union_subset ha hb
  | dependsOnParam x, dependsOnParam y, dependsOnParam z, ha, hb => by
    have hx : x = z := ha
    have hy : y = z := hb
    rw [mergeClosureCaps, if_pos (hx.trans hy.symm)]
    exact hx

instance : SemilatticeSup ClosureCapsResult where
  le := Below
  le_refl := Below.refl
  le_trans _ _ _ := Below.trans
  le_antisymm _ _ := Below.antisymm
  sup := mergeClosureCaps
  le_sup_left := below_merge_left
  le_sup_right a b := (merge_comm a b).symm ▸ below_merge_left b a
  sup_le _ _ _ := merge_below

end ClosureCapsResult

open ClosureCapsResult

/-! ## The map -/

/-- What the builder does to the map. -/
inductive Event where
  /-- the placeholder of a lambda -/
  | seed (name : String)
  | bind (name : String) (authority : ClosureCapsResult)
  /-- a name of the pattern of a `let`, which the map does not learn of -/
  | component (name : String) (authority : ClosureCapsResult)
deriving DecidableEq

namespace Event

def write : Event → Option (Write String ClosureCapsResult)
  | seed name => some (.put name (known ∅))
  | bind name authority => some (.join name authority)
  | component _ _ => none

/-- The name that is bound, and the authority of what it is bound to. -/
def binding : Event → Option (String × ClosureCapsResult)
  | seed _ => none
  | bind name authority => some (name, authority)
  | component name authority => some (name, authority)

end Event

abbrev Entries := String → Option ClosureCapsResult

/-- The map, with what has been done to it. -/
structure LocalCaps where
  entries : Entries
  events : List Event
  tracks : entries = JoinMap.run (events.filterMap Event.write) (fun _ => none)

namespace LocalCaps

def empty : LocalCaps := ⟨fun _ => none, [], rfl⟩

/-- `record_local_caps` -/
def record (name : String) (r : ClosureCapsResult) (σ : LocalCaps) : LocalCaps where
  entries :=
    let merged :=
      match σ.entries name with
      | some prev => mergeClosureCaps prev r
      | none => r
    Function.update σ.entries name (some merged)
  events := σ.events ++ [.bind name r]
  tracks := by
    rw [List.filterMap_append, JoinMap.run_append, ← σ.tracks]
    show _ = Function.update σ.entries name (some (JoinMap.joined r (σ.entries name)))
    cases σ.entries name with
    | none => rfl
    | some prev => rfl

/-- `locals.insert(name, Known(empty))` -/
def seed (name : String) (σ : LocalCaps) : LocalCaps where
  entries := Function.update σ.entries name (some (known ∅))
  events := σ.events ++ [.seed name]
  tracks := by
    rw [List.filterMap_append, JoinMap.run_append, ← σ.tracks]
    rfl

/-- The names of a pattern are not recorded. -/
def passOver (components : List (String × ClosureCapsResult)) (σ : LocalCaps) : LocalCaps where
  entries := σ.entries
  events := σ.events ++ components.map fun (name, r) => .component name r
  tracks := by
    have hnone : (components.map fun (name, r) => Event.component name r).filterMap Event.write
        = [] := by
      rw [List.filterMap_map]
      exact List.filterMap_eq_nil_iff.mpr fun _ _ => rfl
    rw [List.filterMap_append, hnone, List.append_nil]
    exact σ.tracks

end LocalCaps

/-- The resolvers, over the tables of the module. `componentCaps` is the authority of what a `let`
with a pattern binds to a name; the checker does not compute it. -/
structure Resolvers where
  resolveClosureCaps : Entries → Expr → ClosureCapsResult
  resolveContainerPathCaps : Entries → String → List PathStep → ClosureCapsResult
  componentCaps : Entries → Expr → Pattern → String → ClosureCapsResult

namespace Resolvers

variable (R : Resolvers)

/-- The authority of the initializer of a `let`. -/
def initializerCaps (entries : Entries) (v : Expr) : ClosureCapsResult :=
  match decomposeContainerPath v with
  | some (root, path) =>
    if path ≠ [] then R.resolveContainerPathCaps entries root path
    else R.resolveClosureCaps entries v
  | none => R.resolveClosureCaps entries v

def components (entries : Entries) (v : Expr) : Option Pattern → List (String × ClosureCapsResult)
  | none => []
  | some p => (patternNames p).map fun name => (name, R.componentCaps entries v p name)

end Resolvers

def isLambda : Expr → Bool
  | .lambda .. => true
  | _ => false

section Walk

variable (R : Resolvers)

mutual

def buildLocalClosureCapsBlock : Block → LocalCaps → LocalCaps
  | .mk stmts _, σ => buildLocalClosureCapsStmts stmts σ

def buildLocalClosureCapsBlockOpt : Option Block → LocalCaps → LocalCaps
  | none, σ => σ
  | some b, σ => buildLocalClosureCapsBlock b σ

def buildLocalClosureCapsStmts : List Stmt → LocalCaps → LocalCaps
  | [], σ => σ
  | s :: stmts, σ => buildLocalClosureCapsStmts stmts (buildLocalClosureCapsStmt s σ)

def buildLocalClosureCapsElifs : List (Expr × Block) → LocalCaps → LocalCaps
  | [], σ => σ
  | (c, b) :: elifs, σ =>
    buildLocalClosureCapsElifs elifs
      (buildLocalClosureCapsBlock b (buildLocalClosureCapsExpr c σ))

def buildLocalClosureCapsBranches : List SelectBranch → LocalCaps → LocalCaps
  | [], σ => σ
  | .mk _ channel body _ :: branches, σ =>
    buildLocalClosureCapsBranches branches
      (buildLocalClosureCapsBlock body (buildLocalClosureCapsExpr channel σ))

def buildLocalClosureCapsTimeout : Option SelectTimeout → LocalCaps → LocalCaps
  | none, σ => σ
  | some (.mk durationMs body _), σ =>
    buildLocalClosureCapsBlock body (buildLocalClosureCapsExpr durationMs σ)

def buildLocalClosureCapsStmt : Stmt → LocalCaps → LocalCaps
  | .letStmt name _ _ (some v) pattern _, σ =>
    let σ := buildLocalClosureCapsPatternOpt pattern σ
    -- A lambda is walked once its own name holds the placeholder.
    let σ := buildLocalClosureCapsExpr v (if isLambda v then σ.seed name else σ)
    (σ.record name (R.initializerCaps σ.entries v)).passOver (R.components σ.entries v pattern)
  | .letStmt _ _ _ none pattern _, σ => buildLocalClosureCapsPatternOpt pattern σ
  | .assign target _ value _, σ =>
    match target with
    | .identifier name _ =>
      let σ := buildLocalClosureCapsExpr value σ
      σ.record name (R.resolveClosureCaps σ.entries value)
    | target => buildLocalClosureCapsExpr value (buildLocalClosureCapsExpr target σ)
  | .denyBlock _ body _, σ => buildLocalClosureCapsBlock body σ
  | .ifStmt condition thenBlock elifClauses elseBlock _, σ =>
    buildLocalClosureCapsBlockOpt elseBlock (buildLocalClosureCapsElifs elifClauses
      (buildLocalClosureCapsBlock thenBlock (buildLocalClosureCapsExpr condition σ)))
  | .forStmt _ pattern iterable body _, σ =>
    buildLocalClosureCapsBlock body (buildLocalClosureCapsExpr iterable
      (buildLocalClosureCapsPattern pattern σ))
  | .whileStmt condition body _, σ =>
    buildLocalClosureCapsBlock body (buildLocalClosureCapsExpr condition σ)
  | .select branches timeout _, σ =>
    buildLocalClosureCapsTimeout timeout (buildLocalClosureCapsBranches branches σ)
  | .tryCatch tryBlock _ catchBlock _, σ =>
    buildLocalClosureCapsBlock catchBlock (buildLocalClosureCapsBlock tryBlock σ)
  | .exprStmt e _, σ => buildLocalClosureCapsExpr e σ
  | .spawn e _, σ => buildLocalClosureCapsExpr e σ
  | .throwStmt e _, σ => buildLocalClosureCapsExpr e σ
  | .returnStmt value _, σ => buildLocalClosureCapsExprOpt value σ
  | .breakStmt _, σ => σ
  | .continueStmt _, σ => σ

def buildLocalClosureCapsPattern : Pattern → LocalCaps → LocalCaps
  | .literal e _, σ => buildLocalClosureCapsExpr e σ
  | .tuple elements _, σ => buildLocalClosureCapsPatterns elements σ
  | .enum _ _ fields _, σ => buildLocalClosureCapsPatterns fields σ
  | .or patterns _, σ => buildLocalClosureCapsPatterns patterns σ
  | .struct _ fields _, σ => buildLocalClosureCapsFieldPatterns fields σ
  | .wildcard _, σ => σ
  | .ident _ _ _, σ => σ

def buildLocalClosureCapsPatternOpt : Option Pattern → LocalCaps → LocalCaps
  | none, σ => σ
  | some p, σ => buildLocalClosureCapsPattern p σ

def buildLocalClosureCapsPatterns : List Pattern → LocalCaps → LocalCaps
  | [], σ => σ
  | p :: ps, σ => buildLocalClosureCapsPatterns ps (buildLocalClosureCapsPattern p σ)

def buildLocalClosureCapsFieldPatterns : List (String × Pattern) → LocalCaps → LocalCaps
  | [], σ => σ
  | (_, p) :: ps, σ => buildLocalClosureCapsFieldPatterns ps (buildLocalClosureCapsPattern p σ)

def buildLocalClosureCapsExpr : Expr → LocalCaps → LocalCaps
  | .interpolatedString parts _, σ => buildLocalClosureCapsParts parts σ
  | .fieldAccess object _ _, σ => buildLocalClosureCapsExpr object σ
  | .indexAccess object index _, σ =>
    buildLocalClosureCapsExpr index (buildLocalClosureCapsExpr object σ)
  | .binaryOp _ left right _, σ =>
    buildLocalClosureCapsExpr right (buildLocalClosureCapsExpr left σ)
  | .pipeExpr left right _, σ =>
    buildLocalClosureCapsExpr right (buildLocalClosureCapsExpr left σ)
  | .unaryOp _ operand _, σ => buildLocalClosureCapsExpr operand σ
  | .fnCall callee args _, σ =>
    buildLocalClosureCapsExprs args (buildLocalClosureCapsExpr callee σ)
  | .methodCall object _ args _, σ =>
    buildLocalClosureCapsExprs args (buildLocalClosureCapsExpr object σ)
  | .staticMethodCall _ _ args _, σ => buildLocalClosureCapsExprs args σ
  | .arrayLiteral elements _, σ => buildLocalClosureCapsExprs elements σ
  | .tupleLiteral elements _, σ => buildLocalClosureCapsExprs elements σ
  | .mapLiteral entries _, σ => buildLocalClosureCapsEntries entries σ
  | .structLiteral _ fields _, σ => buildLocalClosureCapsFields fields σ
  | .lambda params _ body _, σ =>
    buildLocalClosureCapsExpr body (buildLocalClosureCapsDefaults params σ)
  | .ifExpr condition thenBranch elseBranch _, σ =>
    buildLocalClosureCapsBlockOpt elseBranch (buildLocalClosureCapsBlock thenBranch
      (buildLocalClosureCapsExpr condition σ))
  | .matchExpr subject arms _, σ =>
    buildLocalClosureCapsArms arms (buildLocalClosureCapsExpr subject σ)
  | .rangeExpr start stop _ _, σ =>
    buildLocalClosureCapsExprOpt stop (buildLocalClosureCapsExprOpt start σ)
  | .borrow inner _ _, σ => buildLocalClosureCapsExpr inner σ
  | .deref inner _, σ => buildLocalClosureCapsExpr inner σ
  | .sharedExpr inner _, σ => buildLocalClosureCapsExpr inner σ
  | .moveExpr inner _, σ => buildLocalClosureCapsExpr inner σ
  | .weakExpr inner _, σ => buildLocalClosureCapsExpr inner σ
  | .comptimeBlock body _, σ => buildLocalClosureCapsBlock body σ
  | .quantumBlock body _, σ => buildLocalClosureCapsBlock body σ
  | .unsafeBlock body _, σ => buildLocalClosureCapsBlock body σ
  | .cast inner _ _, σ => buildLocalClosureCapsExpr inner σ
  | .block block _, σ => buildLocalClosureCapsBlock block σ
  | .await value _, σ => buildLocalClosureCapsExpr value σ
  | .intLiteral .., σ | .floatLiteral .., σ | .stringLiteral .., σ | .charLiteral .., σ
  | .boolLiteral .., σ | .noneLiteral .., σ | .identifier .., σ => σ

def buildLocalClosureCapsExprOpt : Option Expr → LocalCaps → LocalCaps
  | none, σ => σ
  | some e, σ => buildLocalClosureCapsExpr e σ

def buildLocalClosureCapsExprs : List Expr → LocalCaps → LocalCaps
  | [], σ => σ
  | e :: es, σ => buildLocalClosureCapsExprs es (buildLocalClosureCapsExpr e σ)

def buildLocalClosureCapsEntries : List (Expr × Expr) → LocalCaps → LocalCaps
  | [], σ => σ
  | (k, v) :: entries, σ =>
    buildLocalClosureCapsEntries entries
      (buildLocalClosureCapsExpr v (buildLocalClosureCapsExpr k σ))

def buildLocalClosureCapsFields : List (String × Expr) → LocalCaps → LocalCaps
  | [], σ => σ
  | (_, e) :: fields, σ => buildLocalClosureCapsFields fields (buildLocalClosureCapsExpr e σ)

def buildLocalClosureCapsParts : List StringPart → LocalCaps → LocalCaps
  | [], σ => σ
  | .literal _ :: parts, σ => buildLocalClosureCapsParts parts σ
  | .expr e :: parts, σ => buildLocalClosureCapsParts parts (buildLocalClosureCapsExpr e σ)

def buildLocalClosureCapsDefaults : List Param → LocalCaps → LocalCaps
  | [], σ => σ
  | .mk _ _ default _ :: params, σ =>
    buildLocalClosureCapsDefaults params (buildLocalClosureCapsExprOpt default σ)

def buildLocalClosureCapsArms : List MatchArm → LocalCaps → LocalCaps
  | [], σ => σ
  | .mk pattern guard body _ :: arms, σ =>
    buildLocalClosureCapsArms arms (buildLocalClosureCapsExpr body
      (buildLocalClosureCapsExprOpt guard (buildLocalClosureCapsPattern pattern σ)))

end

def buildLocalClosureCaps (block : Block) : LocalCaps :=
  buildLocalClosureCapsBlock R block .empty

/-! ## The places that bind -/

/-- A place of the text that binds a name. -/
inductive Site where
  /-- a `let` of a lambda, before its initializer -/
  | lambdaLet (name : String)
  | bound (name : String)
  | component (name : String)
deriving DecidableEq

def Event.site : Event → Site
  | .seed name => .lambdaLet name
  | .bind name _ => .bound name
  | .component name _ => .component name

def componentSites : Option Pattern → List Site
  | none => []
  | some p => (patternNames p).map .component

mutual

def blockSites : Block → List Site
  | .mk stmts _ => stmtsSites stmts

def blockOptSites : Option Block → List Site
  | none => []
  | some b => blockSites b

def stmtsSites : List Stmt → List Site
  | [] => []
  | s :: stmts => stmtSites s ++ stmtsSites stmts

def elifsSites : List (Expr × Block) → List Site
  | [] => []
  | (c, b) :: elifs => exprSites c ++ (blockSites b ++ elifsSites elifs)

def branchesSites : List SelectBranch → List Site
  | [] => []
  | .mk _ channel body _ :: branches => exprSites channel ++ (blockSites body ++ branchesSites branches)

def timeoutSites : Option SelectTimeout → List Site
  | none => []
  | some (.mk durationMs body _) => exprSites durationMs ++ blockSites body

def stmtSites : Stmt → List Site
  | .letStmt name _ _ (some v) pattern _ =>
    patternOptSites pattern ++ ((if isLambda v then [.lambdaLet name] else []) ++ (exprSites v ++
      (.bound name :: componentSites pattern)))
  | .letStmt _ _ _ none pattern _ => patternOptSites pattern
  | .assign target _ value _ =>
    match target with
    | .identifier name _ => exprSites value ++ [.bound name]
    | target => exprSites target ++ exprSites value
  | .denyBlock _ body _ => blockSites body
  | .ifStmt condition thenBlock elifClauses elseBlock _ =>
    exprSites condition ++ (blockSites thenBlock ++ (elifsSites elifClauses ++
      blockOptSites elseBlock))
  | .forStmt _ pattern iterable body _ =>
    patternSites pattern ++ (exprSites iterable ++ blockSites body)
  | .whileStmt condition body _ => exprSites condition ++ blockSites body
  | .select branches timeout _ => branchesSites branches ++ timeoutSites timeout
  | .tryCatch tryBlock _ catchBlock _ => blockSites tryBlock ++ blockSites catchBlock
  | .exprStmt e _ => exprSites e
  | .spawn e _ => exprSites e
  | .throwStmt e _ => exprSites e
  | .returnStmt value _ => exprOptSites value
  | .breakStmt _ => []
  | .continueStmt _ => []

def patternSites : Pattern → List Site
  | .literal e _ => exprSites e
  | .tuple elements _ => patternsSites elements
  | .enum _ _ fields _ => patternsSites fields
  | .or patterns _ => patternsSites patterns
  | .struct _ fields _ => fieldPatternsSites fields
  | .wildcard _ => []
  | .ident _ _ _ => []

def patternOptSites : Option Pattern → List Site
  | none => []
  | some p => patternSites p

def patternsSites : List Pattern → List Site
  | [] => []
  | p :: ps => patternSites p ++ patternsSites ps

def fieldPatternsSites : List (String × Pattern) → List Site
  | [] => []
  | (_, p) :: ps => patternSites p ++ fieldPatternsSites ps

def exprSites : Expr → List Site
  | .interpolatedString parts _ => partsSites parts
  | .fieldAccess object _ _ => exprSites object
  | .indexAccess object index _ => exprSites object ++ exprSites index
  | .binaryOp _ left right _ => exprSites left ++ exprSites right
  | .pipeExpr left right _ => exprSites left ++ exprSites right
  | .unaryOp _ operand _ => exprSites operand
  | .fnCall callee args _ => exprSites callee ++ exprsSites args
  | .methodCall object _ args _ => exprSites object ++ exprsSites args
  | .staticMethodCall _ _ args _ => exprsSites args
  | .arrayLiteral elements _ => exprsSites elements
  | .tupleLiteral elements _ => exprsSites elements
  | .mapLiteral entries _ => entriesSites entries
  | .structLiteral _ fields _ => fieldsSites fields
  | .lambda params _ body _ => defaultsSites params ++ exprSites body
  | .ifExpr condition thenBranch elseBranch _ =>
    exprSites condition ++ (blockSites thenBranch ++ blockOptSites elseBranch)
  | .matchExpr subject arms _ => exprSites subject ++ armsSites arms
  | .rangeExpr start stop _ _ => exprOptSites start ++ exprOptSites stop
  | .borrow inner _ _ => exprSites inner
  | .deref inner _ => exprSites inner
  | .sharedExpr inner _ => exprSites inner
  | .moveExpr inner _ => exprSites inner
  | .weakExpr inner _ => exprSites inner
  | .comptimeBlock body _ => blockSites body
  | .quantumBlock body _ => blockSites body
  | .unsafeBlock body _ => blockSites body
  | .cast inner _ _ => exprSites inner
  | .block block _ => blockSites block
  | .await value _ => exprSites value
  | .intLiteral .. | .floatLiteral .. | .stringLiteral .. | .charLiteral .. | .boolLiteral ..
  | .noneLiteral .. | .identifier .. => []

def exprOptSites : Option Expr → List Site
  | none => []
  | some e => exprSites e

def exprsSites : List Expr → List Site
  | [] => []
  | e :: es => exprSites e ++ exprsSites es

def entriesSites : List (Expr × Expr) → List Site
  | [] => []
  | (k, v) :: entries => exprSites k ++ (exprSites v ++ entriesSites entries)

def fieldsSites : List (String × Expr) → List Site
  | [] => []
  | (_, e) :: fields => exprSites e ++ fieldsSites fields

def partsSites : List StringPart → List Site
  | [] => []
  | .literal _ :: parts => partsSites parts
  | .expr e :: parts => exprSites e ++ partsSites parts

def defaultsSites : List Param → List Site
  | [] => []
  | .mk _ _ default _ :: params => exprOptSites default ++ defaultsSites params

def armsSites : List MatchArm → List Site
  | [] => []
  | .mk pattern guard body _ :: arms =>
    patternSites pattern ++ (exprOptSites guard ++ (exprSites body ++ armsSites arms))

end

/-- A part of the walk comes to these places, in order. -/
def Emits (f : LocalCaps → LocalCaps) (sites : List Site) : Prop :=
  ∀ σ, (f σ).events.map Event.site = σ.events.map Event.site ++ sites

namespace Emits

variable {f g : LocalCaps → LocalCaps} {sites sites' : List Site}

theorem skip : Emits (fun σ => σ) [] := fun _ => (List.append_nil _).symm

theorem comp (hf : Emits f sites) (hg : Emits g sites') :
    Emits (fun σ => g (f σ)) (sites ++ sites') := by
  intro σ
  rw [hg, hf, List.append_assoc]

theorem seed (name : String) (v : Expr) : Emits (fun σ => if isLambda v then σ.seed name else σ)
    (if isLambda v then [.lambdaLet name] else []) := by
  intro σ
  show (if isLambda v then σ.seed name else σ).events.map Event.site = _
  by_cases h : isLambda v
  · rw [if_pos h, if_pos h]
    exact List.map_append
  · rw [if_neg h, if_neg h, List.append_nil]

theorem record (name : String) (r : Entries → ClosureCapsResult) :
    Emits (fun σ => σ.record name (r σ.entries)) [.bound name] := fun _ => List.map_append

theorem components (entries : Entries) (v : Expr) (pattern : Option Pattern) :
    ((R.components entries v pattern).map fun (name, r) => Event.component name r).map Event.site =
      componentSites pattern := by
  cases pattern with
  | none => rfl
  | some p =>
    rw [Resolvers.components, List.map_map, List.map_map]
    rfl

theorem bindings (name : String) (v : Expr) (pattern : Option Pattern) :
    Emits (fun σ => (σ.record name (R.initializerCaps σ.entries v)).passOver
      (R.components σ.entries v pattern)) (.bound name :: componentSites pattern) := by
  intro σ
  show ((σ.events ++ [Event.bind name _]) ++ _).map Event.site = _
  rw [List.map_append, components, List.map_append, List.append_assoc]
  rfl

end Emits

mutual

theorem emits_block : (b : Block) → Emits (buildLocalClosureCapsBlock R b) (blockSites b)
  | .mk stmts _ => emits_stmts stmts

theorem emits_blockOpt : (b : Option Block) →
    Emits (buildLocalClosureCapsBlockOpt R b) (blockOptSites b)
  | none => .skip
  | some b => emits_block b

theorem emits_stmts : (stmts : List Stmt) →
    Emits (buildLocalClosureCapsStmts R stmts) (stmtsSites stmts)
  | [] => .skip
  | s :: stmts => (emits_stmt s).comp (emits_stmts stmts)

theorem emits_elifs : (elifs : List (Expr × Block)) →
    Emits (buildLocalClosureCapsElifs R elifs) (elifsSites elifs)
  | [] => .skip
  | (c, b) :: elifs => (emits_expr c).comp ((emits_block b).comp (emits_elifs elifs))

theorem emits_branches : (branches : List SelectBranch) →
    Emits (buildLocalClosureCapsBranches R branches) (branchesSites branches)
  | [] => .skip
  | .mk _ channel body _ :: branches =>
    (emits_expr channel).comp ((emits_block body).comp (emits_branches branches))

theorem emits_timeout : (timeout : Option SelectTimeout) →
    Emits (buildLocalClosureCapsTimeout R timeout) (timeoutSites timeout)
  | none => .skip
  | some (.mk durationMs body _) => (emits_expr durationMs).comp (emits_block body)

theorem emits_stmt : (s : Stmt) → Emits (buildLocalClosureCapsStmt R s) (stmtSites s)
  | .letStmt name _ _ (some v) pattern _ =>
    (emits_patternOpt pattern).comp ((Emits.seed name v).comp ((emits_expr v).comp
      (Emits.bindings R name v pattern)))
  | .letStmt _ _ _ none pattern _ => emits_patternOpt pattern
  | .assign target _ value _ => by
    cases target with
    | identifier name _ =>
      exact (emits_expr value).comp (.record name fun entries => R.resolveClosureCaps entries value)
    | _ => exact (emits_expr _).comp (emits_expr value)
  | .denyBlock _ body _ => emits_block body
  | .ifStmt condition thenBlock elifClauses elseBlock _ =>
    (emits_expr condition).comp ((emits_block thenBlock).comp ((emits_elifs elifClauses).comp
      (emits_blockOpt elseBlock)))
  | .forStmt _ pattern iterable body _ =>
    (emits_pattern pattern).comp ((emits_expr iterable).comp (emits_block body))
  | .whileStmt condition body _ => (emits_expr condition).comp (emits_block body)
  | .select branches timeout _ => (emits_branches branches).comp (emits_timeout timeout)
  | .tryCatch tryBlock _ catchBlock _ => (emits_block tryBlock).comp (emits_block catchBlock)
  | .exprStmt e _ | .spawn e _ | .throwStmt e _ => emits_expr e
  | .returnStmt value _ => emits_exprOpt value
  | .breakStmt _ | .continueStmt _ => .skip

theorem emits_pattern : (p : Pattern) → Emits (buildLocalClosureCapsPattern R p) (patternSites p)
  | .literal e _ => emits_expr e
  | .tuple elements _ => emits_patterns elements
  | .enum _ _ fields _ => emits_patterns fields
  | .or patterns _ => emits_patterns patterns
  | .struct _ fields _ => emits_fieldPatterns fields
  | .wildcard _ | .ident _ _ _ => .skip

theorem emits_patternOpt : (p : Option Pattern) →
    Emits (buildLocalClosureCapsPatternOpt R p) (patternOptSites p)
  | none => .skip
  | some p => emits_pattern p

theorem emits_patterns : (ps : List Pattern) →
    Emits (buildLocalClosureCapsPatterns R ps) (patternsSites ps)
  | [] => .skip
  | p :: ps => (emits_pattern p).comp (emits_patterns ps)

theorem emits_fieldPatterns : (ps : List (String × Pattern)) →
    Emits (buildLocalClosureCapsFieldPatterns R ps) (fieldPatternsSites ps)
  | [] => .skip
  | (_, p) :: ps => (emits_pattern p).comp (emits_fieldPatterns ps)

theorem emits_expr : (e : Expr) → Emits (buildLocalClosureCapsExpr R e) (exprSites e)
  | .interpolatedString parts _ => emits_parts parts
  | .fieldAccess object _ _ => emits_expr object
  | .indexAccess object index _ => (emits_expr object).comp (emits_expr index)
  | .binaryOp _ left right _ | .pipeExpr left right _ => (emits_expr left).comp (emits_expr right)
  | .unaryOp _ operand _ => emits_expr operand
  | .fnCall callee args _ => (emits_expr callee).comp (emits_exprs args)
  | .methodCall object _ args _ => (emits_expr object).comp (emits_exprs args)
  | .staticMethodCall _ _ args _ => emits_exprs args
  | .arrayLiteral elements _ | .tupleLiteral elements _ => emits_exprs elements
  | .mapLiteral entries _ => emits_entries entries
  | .structLiteral _ fields _ => emits_fields fields
  | .lambda params _ body _ => (emits_defaults params).comp (emits_expr body)
  | .ifExpr condition thenBranch elseBranch _ =>
    (emits_expr condition).comp ((emits_block thenBranch).comp (emits_blockOpt elseBranch))
  | .matchExpr subject arms _ => (emits_expr subject).comp (emits_arms arms)
  | .rangeExpr start stop _ _ => (emits_exprOpt start).comp (emits_exprOpt stop)
  | .borrow inner _ _ | .deref inner _ | .sharedExpr inner _ | .moveExpr inner _ | .weakExpr inner _
  | .cast inner _ _ => emits_expr inner
  | .comptimeBlock body _ | .quantumBlock body _ | .unsafeBlock body _ => emits_block body
  | .block block _ => emits_block block
  | .await value _ => emits_expr value
  | .intLiteral .. | .floatLiteral .. | .stringLiteral .. | .charLiteral .. | .boolLiteral ..
  | .noneLiteral .. | .identifier .. => .skip

theorem emits_exprOpt : (e : Option Expr) →
    Emits (buildLocalClosureCapsExprOpt R e) (exprOptSites e)
  | none => .skip
  | some e => emits_expr e

theorem emits_exprs : (es : List Expr) → Emits (buildLocalClosureCapsExprs R es) (exprsSites es)
  | [] => .skip
  | e :: es => (emits_expr e).comp (emits_exprs es)

theorem emits_entries : (entries : List (Expr × Expr)) →
    Emits (buildLocalClosureCapsEntries R entries) (entriesSites entries)
  | [] => .skip
  | (k, v) :: entries => (emits_expr k).comp ((emits_expr v).comp (emits_entries entries))

theorem emits_fields : (fields : List (String × Expr)) →
    Emits (buildLocalClosureCapsFields R fields) (fieldsSites fields)
  | [] => .skip
  | (_, e) :: fields => (emits_expr e).comp (emits_fields fields)

theorem emits_parts : (parts : List StringPart) →
    Emits (buildLocalClosureCapsParts R parts) (partsSites parts)
  | [] => .skip
  | .literal _ :: parts => emits_parts parts
  | .expr e :: parts => (emits_expr e).comp (emits_parts parts)

theorem emits_defaults : (params : List Param) →
    Emits (buildLocalClosureCapsDefaults R params) (defaultsSites params)
  | [] => .skip
  | .mk _ _ default _ :: params => (emits_exprOpt default).comp (emits_defaults params)

theorem emits_arms : (arms : List MatchArm) →
    Emits (buildLocalClosureCapsArms R arms) (armsSites arms)
  | [] => .skip
  | .mk pattern guard body _ :: arms =>
    (emits_pattern pattern).comp ((emits_exprOpt guard).comp ((emits_expr body).comp
      (emits_arms arms)))

end

theorem buildLocalClosureCaps_sites (body : Block) :
    (buildLocalClosureCaps R body).events.map Event.site = blockSites body := emits_block R body .empty

/-! ## What the entries cover -/

/-- The names that the body binds by a `let` or an assignment, and the authority of each value. -/
def bindings (body : Block) : List (String × ClosureCapsResult) :=
  (buildLocalClosureCaps R body).events.filterMap Event.binding

/-- What the entry of a name is the union of: what the name is bound to from its last `let` of a
lambda on, and the placeholder. -/
def heldBy (body : Block) (name : String) : List ClosureCapsResult :=
  JoinMap.held name ((buildLocalClosureCaps R body).events.filterMap Event.write) []

/-- The walk comes to every place that binds, and the entries cover what is bound there. -/
structure CoversBindings (body : Block) : Prop where
  everywhere : (buildLocalClosureCaps R body).events.map Event.site = blockSites body
  covers : ∀ b ∈ bindings R body, JoinMap.Covers ((buildLocalClosureCaps R body).entries b.1) b.2

theorem covers_of_mem_heldBy {body : Block} {name : String} {r : ClosureCapsResult}
    (h : r ∈ heldBy R body name) :
    JoinMap.Covers ((buildLocalClosureCaps R body).entries name) r := by
  rw [(buildLocalClosureCaps R body).tracks]
  exact JoinMap.covers_of_mem h

/-- **What the local closure map covers.** It covers every binding just where what an entry does not
hold is below all that is above what it holds. -/
theorem localCaps_cover_iff (body : Block) : CoversBindings R body ↔
    ∀ b ∈ bindings R body, b.2 ∉ heldBy R body b.1 →
      heldBy R body b.1 ≠ [] ∧ ∀ u, (∀ x ∈ heldBy R body b.1, x ≤ u) → b.2 ≤ u := by
  have hentries := (buildLocalClosureCaps R body).tracks
  constructor
  · intro h b hb _
    have hcovers := h.covers b hb
    rw [hentries] at hcovers
    exact (JoinMap.covers_iff _ _ _).mp hcovers
  · intro h
    refine ⟨buildLocalClosureCaps_sites R body, fun b hb => ?_⟩
    by_cases hheld : b.2 ∈ heldBy R body b.1
    · exact covers_of_mem_heldBy R hheld
    · rw [hentries]
      exact (JoinMap.covers_iff _ _ _).mpr (h b hb hheld)

end Walk

/-! ## A lambda after another function value -/

/-- `reader` reads files, and a lambda does nothing. -/
def readerResolvers : Resolvers where
  resolveClosureCaps := fun _ e =>
    match e with
    | .identifier "reader" _ => known {.fsRead}
    | .lambda .. => known ∅
    | _ => unknown
  resolveContainerPathCaps := fun _ _ _ => unknown
  componentCaps := fun _ _ _ _ => unknown

def readerSpan : Span := ⟨0, 0, 0⟩

/-- `let f = reader; let f = || 0` -/
def readerBody : Block :=
  .mk [.letStmt "f" false none (some (.identifier "reader" readerSpan)) none readerSpan,
    .letStmt "f" false none (some (.lambda [] none (.intLiteral 0 readerSpan) readerSpan)) none
      readerSpan] readerSpan

/-- The entry of `f` is the empty set. -/
theorem reader_not_covered : ¬CoversBindings readerResolvers readerBody := by
  intro h
  obtain ⟨e, he, hle⟩ := h.covers ("f", known {.fsRead}) (by decide)
  have hempty : (buildLocalClosureCaps readerResolvers readerBody).entries "f" = some (known ∅) := by
    decide
  rw [Option.some.inj (he.symm.trans hempty)] at hle
  exact absurd hle (by decide : ¬Below (known {.fsRead}) (known ∅))

end Kryos.Capabilities

import Mathlib.Order.Lattice
import Kryos.Types.CapBind
import Kryos.Types.RowWalk

/-!
# Which calls a body can evaluate

An `Outline` is what is left of a body when values are forgotten: its calls with the rows of their
callees, in the order in which control can reach them. Conditions, the number of turns of a loop,
the arm of a `match` and whether an operation raises are left open, so the runs of the outline
include all executions of the body.

An outline also knows which of its parts the checker visits. `skipped` marks a part that is
evaluated at run time but that the walk of the checker does not enter; a `lambda` is entered by the
walk, in a frame of its own, but evaluating it runs nothing.
-/

namespace Kryos.Types

open Kryos.Ast Kryos.Capabilities

/-- How a run of a piece of code ends. -/
inductive Exit where
  | normal | raise | ret | brk | cont
deriving DecidableEq

inductive Outline where
  | skip
  | op
  | call (row : CapRow)
  | leave (exit : Exit)
  | seq (p q : Outline)
  | choice (p q : Outline)
  | loop (test body : Outline)
  | attempt (body handler : Outline)
  | spawn (p : Outline)
  | lambda (body : Outline)
  | deny (block : DenyBlock) (body : Outline)
  | skipped (p : Outline)

/-- A call that a run evaluates: the row of the type of its callee, and whether the checker visits
it. -/
structure Call where
  row : CapRow
  visited : Bool

namespace Outline

/-- The runs of an outline, with the calls they evaluate. -/
inductive Runs : Outline → List Call → Exit → Prop
  | skip : Runs skip [] .normal
  | op : Runs op [] .normal
  | opRaises : Runs op [] .raise
  | call (row : CapRow) : Runs (call row) [⟨row, true⟩] .normal
  | callRaises (row : CapRow) : Runs (call row) [⟨row, true⟩] .raise
  | leave (exit : Exit) : Runs (leave exit) [] exit
  | seq {p q t t' e} : Runs p t .normal → Runs q t' e → Runs (seq p q) (t ++ t') e
  | seqLeaves {p q t e} : Runs p t e → e ≠ .normal → Runs (seq p q) t e
  | left {p q t e} : Runs p t e → Runs (choice p q) t e
  | right {p q t e} : Runs q t e → Runs (choice p q) t e
  | loopEnds {p q t e} : Runs p t e → Runs (loop p q) t e
  | loopTurns {p q t t' t'' e e'} : Runs p t .normal → Runs q t' e → e = .normal ∨ e = .cont →
      Runs (loop p q) t'' e' → Runs (loop p q) (t ++ t' ++ t'') e'
  | loopBreaks {p q t t'} : Runs p t .normal → Runs q t' .brk → Runs (loop p q) (t ++ t') .normal
  | loopLeaves {p q t t' e} : Runs p t .normal → Runs q t' e → e = .raise ∨ e = .ret →
      Runs (loop p q) (t ++ t') e
  | attempt {p q t e} : Runs p t e → e ≠ .raise → Runs (attempt p q) t e
  | caught {p q t t' e} : Runs p t .raise → Runs q t' e → Runs (attempt p q) (t ++ t') e
  | spawn {p t e} : Runs p t e → Runs (spawn p) t .normal
  | lambda (p : Outline) : Runs (lambda p) [] .normal
  | deny {d p t e} : Runs p t e → Runs (deny d p) t e
  | skipped {p t e} : Runs p t e → Runs (skipped p) (t.map fun c => { c with visited := false }) e

/-- Some run evaluates the call. -/
def Evaluates (p : Outline) (c : Call) : Prop := ∃ t e, Runs p t e ∧ c ∈ t

/-- The rows of the calls in visited positions, together. -/
def visitedRow : Outline → CapRow
  | skip | op | leave _ | lambda _ | skipped _ => ⊥
  | call row => row
  | seq p q | choice p q | loop p q | attempt p q => p.visitedRow ⊔ q.visitedRow
  | spawn p | deny _ p => p.visitedRow

/-- All `deny!` blocks of the outline, wherever they stand. -/
def denies : Outline → List DenyBlock
  | skip | op | leave _ | call _ => []
  | seq p q | choice p q | loop p q | attempt p q => p.denies ++ q.denies
  | spawn p | lambda p | skipped p => p.denies
  | deny d p => d :: p.denies

/-- The `deny!` blocks in visited positions. -/
def visitedDenies : Outline → List DenyBlock
  | skip | op | leave _ | call _ | skipped _ => []
  | seq p q | choice p q | loop p q | attempt p q => p.visitedDenies ++ q.visitedDenies
  | spawn p | lambda p => p.visitedDenies
  | deny d p => d :: p.visitedDenies

/-- Several outlines one after the other. -/
def seqAll (ps : List Outline) : Outline := ps.foldr seq skip

/-- The arguments of a call, of which only those with the given positions are visited. -/
def args (idx : List ℕ) (ps : List Outline) : Outline :=
  seqAll (ps.zipIdx.map fun (p, i) => if i ∈ idx then p else skipped p)

/-- A call that is visited charges the row of its callee. -/
theorem le_visitedRow {p : Outline} {t : List Call} {e : Exit} (h : Runs p t e) :
    ∀ c ∈ t, c.visited → c.row ≤ p.visitedRow := by
  induction h with
  | skip | op | opRaises | leave _ | lambda _ => simp
  | call row | callRaises row => simp [visitedRow]
  | seq _ _ ihp ihq | loopBreaks _ _ ihp ihq | loopLeaves _ _ _ ihp ihq | caught _ _ ihp ihq =>
    intro c hc hv
    rcases List.mem_append.mp hc with hc | hc
    · exact (ihp c hc hv).trans le_sup_left
    · exact (ihq c hc hv).trans le_sup_right
  | seqLeaves _ _ ih | left _ ih | loopEnds _ ih | attempt _ _ ih =>
    exact fun c hc hv => (ih c hc hv).trans le_sup_left
  | right _ ih => exact fun c hc hv => (ih c hc hv).trans le_sup_right
  | loopTurns _ _ _ _ ihp ihq ih =>
    intro c hc hv
    rcases List.mem_append.mp hc with hc | hc
    · rcases List.mem_append.mp hc with hc | hc
      · exact (ihp c hc hv).trans le_sup_left
      · exact (ihq c hc hv).trans le_sup_right
    · exact ih c hc hv
  | spawn _ ih | deny _ ih => exact ih
  | skipped _ _ =>
    intro c hc hv
    obtain ⟨c', -, rfl⟩ := List.mem_map.mp hc
    cases hv

theorem Evaluates.le_visitedRow {p : Outline} {c : Call} (h : p.Evaluates c) (hv : c.visited) :
    c.row ≤ p.visitedRow := by
  obtain ⟨t, e, hr, hc⟩ := h
  exact Outline.le_visitedRow hr c hc hv

end Outline

/-! ### The outline of a body -/

section Outlines

variable (o : Typing)

open Outline

/-- The bits that a call by name charges for a builtin. -/
def builtinRow (name : Option String) : CapRow :=
  match name.bind o.requiredCapabilityForBuiltin with
  | none => .empty
  | some cap => .closed {cap}

/-- The callee and the arguments are evaluated, then the call is made. -/
def callOutline (name : Option String) (callee : Outline) (ps : List Outline) (span : Span) :
    Outline :=
  match name.bind fun _ => o.bareVariant span with
  | some fields => seq (args (variantArgs fields ps.length) ps) (call (builtinRow o name))
  | none =>
    match o.callee span with
    | .function params isOpaque caps =>
      seq callee (seq
        (args (functionArgs name params isOpaque (o.firstIsMap span) ps.length) ps)
        (call (builtinRow o name ⊔ caps)))
    | .other => seq callee (seq (args [] ps) (call (builtinRow o name)))

def staticOutline (ps : List Outline) (span : Span) : Outline :=
  seq (args (staticArgs (o.static span) ps.length) ps) (call (staticCharge (o.static span)))

/-- A `dyn` method has an unknown callee, also where the call is rejected. -/
def methodOutline (object : Outline) (ps : List Outline) (span : Span) : Outline :=
  seq object (seq (args (methodArgs (o.method span) ps.length) ps)
    (match o.method span with
      | .dynTrait _ true => skipped (call .unknown)
      | ty => call (methodCharge ty)))

mutual

def exprOutline : Expr → Outline
  | .intLiteral .. | .floatLiteral .. | .stringLiteral .. | .charLiteral .. | .boolLiteral ..
  | .noneLiteral .. | .identifier .. => skip
  | .interpolatedString parts _ => partsOutline parts
  | .fieldAccess object _ _ => exprOutline object
  | .indexAccess object index _ => seq (exprOutline object) (seq (exprOutline index) op)
  | .binaryOp binop left right _ =>
    match binop with
    | .and | .or => seq (exprOutline left) (choice skip (exprOutline right))
    | _ => seq (exprOutline left) (seq (exprOutline right) op)
  | .unaryOp _ operand _ => seq (exprOutline operand) op
  | .fnCall callee as span =>
    callOutline o (calleeName callee) (exprOutline callee) (argOutlines as) span
  | .methodCall object _ as span =>
    if isStaticCall o object span then staticOutline o (argOutlines as) span
    else methodOutline o (exprOutline object) (argOutlines as) span
  | .staticMethodCall _ _ as span => staticOutline o (argOutlines as) span
  | .arrayLiteral elements _ | .tupleLiteral elements _ => exprsOutline elements
  | .mapLiteral entries _ => entriesOutline entries
  | .structLiteral _ fields span =>
    if o.knownStruct span then fieldsOutline fields else skipped (fieldsOutline fields)
  | .lambda _ _ body _ => lambda (exprOutline body)
  | .ifExpr condition thenBranch elseBranch _ =>
    seq (exprOutline condition) (choice (blockOutline thenBranch) (blockOptOutline elseBranch))
  | .matchExpr subject arms _ => seq (exprOutline subject) (armsOutline arms)
  | .rangeExpr start stop _ _ => seq (exprOptOutline start) (exprOptOutline stop)
  | .pipeExpr left (.fnCall callee as span) _ =>
    callOutline o (calleeName callee) (exprOutline callee) (exprOutline left :: argOutlines as) span
  | .pipeExpr left right span =>
    callOutline o (calleeName right) (exprOutline right) [exprOutline left] span
  | .borrow inner _ _ | .deref inner _ | .sharedExpr inner _ | .moveExpr inner _
  | .weakExpr inner _ | .cast inner _ _ | .await inner _ => seq (exprOutline inner) op
  | .comptimeBlock body _ | .quantumBlock body _ | .unsafeBlock body _ => blockOutline body
  | .block block _ => blockOutline block

def exprOptOutline : Option Expr → Outline
  | none => skip
  | some e => exprOutline e

def exprsOutline : List Expr → Outline
  | [] => skip
  | e :: es => seq (exprOutline e) (exprsOutline es)

def argOutlines : List Expr → List Outline
  | [] => []
  | e :: es => exprOutline e :: argOutlines es

def partsOutline : List StringPart → Outline
  | [] => skip
  | .literal _ :: parts => partsOutline parts
  | .expr e :: parts => seq (exprOutline e) (partsOutline parts)

def entriesOutline : List (Expr × Expr) → Outline
  | [] => skip
  | (k, v) :: entries => seq (exprOutline k) (seq (exprOutline v) (entriesOutline entries))

def fieldsOutline : List (String × Expr) → Outline
  | [] => skip
  | (_, e) :: fields => seq (exprOutline e) (fieldsOutline fields)

/-- An arm is taken, or its pattern or its guard fails and the next arms are tried. -/
def armsOutline : List MatchArm → Outline
  | [] => skip
  | .mk _ guard body _ :: arms =>
    choice (seq (skipped (exprOptOutline guard)) (exprOutline body))
      (seq (choice skip (skipped (exprOptOutline guard))) (armsOutline arms))

def blockOutline : Block → Outline
  | .mk stmts _ => stmtsOutline stmts

def blockOptOutline : Option Block → Outline
  | none => skip
  | some b => blockOutline b

def stmtsOutline : List Stmt → Outline
  | [] => skip
  | s :: stmts => seq (stmtOutline s) (stmtsOutline stmts)

/-- The `elif` clauses, and what comes after them. -/
def elifsOutline (elseOutline : Outline) : List (Expr × Block) → Outline
  | [] => elseOutline
  | (c, b) :: elifs => seq (exprOutline c) (choice (blockOutline b) (elifsOutline elseOutline elifs))

/-- The channels of a `select` are evaluated once, before it waits. -/
def channelsOutline : List SelectBranch → Outline
  | [] => skip
  | .mk _ channel _ _ :: branches => seq (exprOutline channel) (channelsOutline branches)

def branchesOutline : List SelectBranch → Outline
  | [] => skip
  | .mk _ _ body _ :: branches => choice (blockOutline body) (branchesOutline branches)

def durationOutline : Option SelectTimeout → Outline
  | none => skip
  | some (.mk duration _ _) => exprOutline duration

def timeoutOutline : Option SelectTimeout → Outline
  | none => skip
  | some (.mk _ body _) => blockOutline body

def stmtOutline : Stmt → Outline
  | .letStmt _ _ _ value _ _ => exprOptOutline value
  | .assign target _ value _ => seq (exprOutline target) (seq (exprOutline value) op)
  | .returnStmt value _ => seq (exprOptOutline value) (leave .ret)
  | .ifStmt condition thenBlock elifs elseBlock _ =>
    seq (exprOutline condition)
      (choice (blockOutline thenBlock) (elifsOutline (blockOptOutline elseBlock) elifs))
  | .forStmt _ _ iterable body _ => seq (exprOutline iterable) (loop op (blockOutline body))
  | .whileStmt condition body _ => loop (exprOutline condition) (blockOutline body)
  | .exprStmt e _ => exprOutline e
  | .throwStmt e _ => seq (exprOutline e) (leave .raise)
  | .spawn e _ => spawn (exprOutline e)
  | .tryCatch tryBlock _ catchBlock _ => attempt (blockOutline tryBlock) (blockOutline catchBlock)
  | .breakStmt _ => leave .brk
  | .continueStmt _ => leave .cont
  | .select branches timeout _ =>
    skipped (seq (channelsOutline branches) (seq (durationOutline timeout)
      (choice (branchesOutline branches) (timeoutOutline timeout))))
  | .denyBlock denied body span => deny ⟨denied, body, span⟩ (blockOutline body)

end

end Outlines

end Kryos.Types

import Kryos.Capabilities.WalkRules
import Kryos.Lib.ListRel

/-!
# The scopes of the enforcement walk

At every expression that it comes to, the walk has the scopes that can be read off the text there.

## Main results

* `walk_rules` — at every expression the walk has the lexical scopes, but for what it does not bind
* `currentLocals_iff` — when the set of locals is what is lexically bound
* `deny_never_regrants` — what is accepted inside `deny!` blocks
-/

namespace Kryos.Capabilities

open Kryos.Ast Checker

/-! ## What the walk has there -/

/-- The scopes inside `deny!` blocks, over the scopes outside. -/
def denyScopes (base : List CapabilityScope) : List (List String) → List CapabilityScope
  | [] => base
  | denied :: outer => narrowed denied (denyScopes base outer) :: denyScopes base outer

section Walk

variable {F : Type} (T : Tables F) (armNames : Pattern → List String)
variable {base : List CapabilityScope} {c c' c'' : Lexical} {f g : Checker F → Checker F}
variable {ps qs : List (Expr × Lexical)}

/-- The context is the one of a place, but for what an arm binds. -/
def Agrees (base : List CapabilityScope) (ctx : Context F) (c : Lexical) : Prop :=
  ctx.currentLocals = c.bound ∧ ctx.scopeStack = denyScopes base c.denied

/-- A visit to this place. -/
def VisitOf (base : List CapabilityScope) (v : Visit F) (p : Expr × Lexical) : Prop :=
  v.expr = p.1 ∧ Agrees base v.ctx p.2

/-- A part of the walk, begun at `c`, visits these places in order and ends at `c'`. -/
def Walk (base : List CapabilityScope) (f : Checker F → Checker F) (c : Lexical)
    (ps : List (Expr × Lexical)) (c' : Lexical) : Prop :=
  ∀ σ, Agrees base σ.toContext c → Agrees base (f σ).toContext c' ∧
    ∃ new, (f σ).visits = σ.visits ++ new ∧ List.Forall₂ (VisitOf base) new ps

theorem walk_rules : WalkRules T (Walk (F := F) base) where
  skip _ _ h := ⟨h, [], (List.append_nil _).symm, .nil⟩
  enter e _ σ h := ⟨h, [⟨e, σ.toContext⟩], rfl, .cons ⟨rfl, h⟩ .nil⟩
  comp hf hg σ h := by
    obtain ⟨hmid, new, hnew, hps⟩ := hf σ h
    obtain ⟨hend, new', hnew', hqs⟩ := hg _ hmid
    refine ⟨hend, new ++ new', ?_, List.rel_append hps hqs⟩
    rw [hnew', hnew, List.append_assoc]
  bind names _ _ h :=
    ⟨⟨congrArg (· ∪ names.toFinset) h.1, h.2⟩, [], (List.append_nil _).symm, .nil⟩
  restored hf hdenied σ h := by
    obtain ⟨hend, hnew⟩ := hf σ h
    exact ⟨⟨h.1, hdenied ▸ hend.2⟩, hnew⟩
  lambda params hf σ h := by
    obtain ⟨hend, hnew⟩ := hf (σ.enterLambda params) ⟨congrArg (· ∪ paramNames params) h.1, h.2⟩
    refine ⟨⟨?_, hend.2⟩, hnew⟩
    show σ.currentLocals = _
    exact h.1
  arm _ hf := hf
  deny {_ c _} denied span hf σ h := by
    have hin : Agrees base ((σ.report (denyWarning denied span)).pushScope
        (narrowed denied σ.scopeStack)).toContext (c.deny denied) := by
      refine ⟨h.1, ?_⟩
      show narrowed denied σ.scopeStack :: σ.scopeStack = _
      rw [h.2]
      rfl
    obtain ⟨hend, hnew⟩ := hf _ hin
    exact ⟨⟨hend.1, congrArg List.tail hend.2⟩, hnew⟩

theorem walk_expr (e : Expr) (c : Lexical) :
    Walk base (checkExpr T e) c (lexicalExpr armNames c e) c :=
  keeps_expr T armNames e c (walk_rules T)

theorem walk_block (b : Block) (c : Lexical) :
    Walk base (checkBlock T b) c (lexicalBlock armNames c b) c :=
  keeps_block T armNames b c (walk_rules T)

theorem walk_blockOpt (b : Option Block) (c : Lexical) :
    Walk base (checkBlockOpt T b) c (lexicalBlockOpt armNames c b) c :=
  keeps_blockOpt T armNames b c (walk_rules T)

theorem walk_stmt (s : Stmt) (c : Lexical) :
    Walk base (checkStmt T s) c (lexicalStmt armNames c s) (c.after s) :=
  keeps_stmt T armNames s c (walk_rules T)

/-! ## Over a module -/

/-- The locals are what the recorded forms bind. -/
def LocalsAt (v : Visit F) (p : Expr × Lexical) : Prop :=
  v.expr = p.1 ∧ v.ctx.currentLocals = p.2.bound

/-- Begun with these locals, a part of the walk ends with them, and visits these places in order. -/
def WalksFrom (locals : Finset String) (f : Checker F → Checker F)
    (ps : List (Expr × Lexical)) : Prop :=
  ∀ σ, σ.currentLocals = locals → (f σ).currentLocals = locals ∧
    ∃ new, (f σ).visits = σ.visits ++ new ∧ List.Forall₂ LocalsAt new ps

namespace WalksFrom

variable {locals : Finset String}

theorem of_walk (hf : ∀ base, Walk base f c ps c) (hdenied : c.denied = []) :
    WalksFrom c.bound f ps := by
  intro σ hσ
  have hagrees : Agrees σ.scopeStack σ.toContext c := by
    refine ⟨hσ, ?_⟩
    rw [hdenied]
    rfl
  obtain ⟨hend, new, hnew, hps⟩ := hf σ.scopeStack σ hagrees
  exact ⟨hend.1, new, hnew, hps.imp fun _ _ h => ⟨h.1, h.2.1⟩⟩

theorem skip : WalksFrom locals (fun σ : Checker F => σ) [] := fun _ h =>
  ⟨h, [], (List.append_nil _).symm, .nil⟩

theorem report (diagnostics : List Diagnostic) :
    WalksFrom locals (Checker.report (F := F) diagnostics) [] := fun _ h =>
  ⟨h, [], (List.append_nil _).symm, .nil⟩

theorem comp (hf : WalksFrom locals f ps) (hg : WalksFrom locals g qs) :
    WalksFrom locals (fun σ => g (f σ)) (ps ++ qs) := by
  intro σ h
  obtain ⟨hmid, new, hnew, hps⟩ := hf σ h
  obtain ⟨hend, new', hnew', hqs⟩ := hg (f σ) hmid
  refine ⟨hend, new ++ new', ?_, List.rel_append hps hqs⟩
  rw [hnew', hnew, List.append_assoc]

theorem inScope (scope : CapabilityScope) (hf : WalksFrom locals f ps) :
    WalksFrom locals (Checker.inScope scope f) ps := fun σ h =>
  hf { σ with
    scopeStack := scope :: σ.scopeStack
    currentFnEntryScopeDepth := (scope :: σ.scopeStack).length } h

end WalksFrom

theorem walks_function (name : String) (params : List Param) (annotations : List Annotation)
    (body : Option Block) (span : Span) :
    WalksFrom (paramNames params) (checkFunction T name annotations body span)
      (lexicalBlockOpt armNames (.function params) body) := by
  have hbody : WalksFrom (paramNames params) (checkBlockOpt T body)
      (lexicalBlockOpt armNames (.function params) body) :=
    .of_walk (fun _ => walk_blockOpt T armNames body (.function params)) rfl
  intro σ h
  exact (hbody.inScope (T.functionScope name annotations)) _ h

theorem walks_handler (handler : MessageHandler) : WalksFrom ∅ (checkHandler T handler)
    (lexicalBlock armNames (.handler handler.params) handler.body) := by
  have hbody : WalksFrom ∅ (checkBlock T handler.body)
      (lexicalBlock armNames (.handler handler.params) handler.body) :=
    .of_walk (fun _ => walk_block T armNames handler.body (.handler handler.params)) rfl
  intro σ h
  exact hbody { σ with
    currentFnTypedParams := fnTypedNames T handler.params
    frame := T.handlerFrame handler } h

theorem walks_handlers (handlers : List MessageHandler) : WalksFrom ∅ (checkHandlers T handlers)
    (handlers.flatMap fun h => lexicalBlock armNames (.handler h.params) h.body) := by
  induction handlers with
  | nil => exact .skip
  | cons handler handlers ih => exact (walks_handler T armNames handler).comp ih

theorem walks_actor (name : String) (annotations : List Annotation) (stateFields : List StructField)
    (handlers : List MessageHandler) : WalksFrom ∅ (checkActor T name annotations stateFields handlers)
      (handlers.flatMap fun h => lexicalBlock armNames (.handler h.params) h.body) := by
  intro σ h
  exact walks_handlers T armNames handlers _ h

mutual

theorem walks_decl : (d : Decl) → WalksFrom ∅ (checkDecl T d) (lexicalDecl armNames d)
  | .function name _ params _ body _ _ annotations _ span => fun σ _ =>
    ⟨rfl, (walks_function T armNames name params annotations body span
      { σ with
        currentLocals := paramNames params
        currentFnTypedParams := fnTypedNames T params
        frame := T.functionFrame params body } rfl).2⟩
  | .actor name stateFields handlers annotations _ _ =>
    walks_actor T armNames name annotations stateFields handlers
  | .externBlock _ items _ _ => fun _ h => walks_decls items _ h
  | .impl _ _ _ methods _ _ => walks_decls methods
  | .trait _ _ methods _ _ _ => walks_decls methods
  | .importDecl _ _ _ => fun _ h => ⟨h, [], (List.append_nil _).symm, .nil⟩
  | .const _ _ value _ _ _ _ => fun _ h =>
    WalksFrom.of_walk (fun _ => walk_expr T armNames value .global) rfl _ h
  | .struct .. | .enum .. | .typeAlias .. => .skip

theorem walks_decls : (ds : List Decl) → WalksFrom ∅ (checkDecls T ds) (lexicalDecls armNames ds)
  | [] => .skip
  | d :: ds => (walks_decl d).comp (walks_decls ds)

end

/-! ## The results -/

/-- At every expression that the walk visits, the locals are the names that are bound there. -/
def LexicallyScoped (module : Module) : Prop :=
  List.Forall₂ (fun (v : Visit F) p => v.expr = p.1 ∧ v.ctx.currentLocals = p.2.names)
    (checkModule T module).visits (lexicalDecls armNames module.declarations)

/-- The capabilities that a stack of scopes grants. -/
def inForce (scopes : List CapabilityScope) : CapabilitySet :=
  (scopes.head?.map CapabilityScope.capabilities).getD ∅

/-- The capability is granted by the set and shares no access with one that is denied. -/
def GrantedOutside (initial : CapabilitySet) (denied : List (List String)) (r : Capability) : Prop :=
  initial.satisfiesRequired r ∧ ∀ d ∈ denied, ∀ c ∈ deniedCaps d, r.overlaps c = false

theorem grantedOutside_of_denyScopes {ds : List (List String)} {r : Capability}
    (h : (inForce (denyScopes base ds)).satisfiesRequired r) :
    GrantedOutside (inForce base) ds r := by
  induction ds with
  | nil => exact ⟨h, fun d hd => absurd hd List.not_mem_nil⟩
  | cons d ds ih =>
    have hwithout : ((inForce (denyScopes base ds)).without (deniedCaps d)).satisfiesRequired r := h
    have houter := ih (CapabilitySet.satisfiesRequired_mono
      (CapabilitySet.without_subset _ _) hwithout)
    refine ⟨houter.1, List.forall_mem_cons.mpr ⟨fun c hc => ?_, houter.2⟩⟩
    exact CapabilitySet.not_overlaps_of_without hwithout hc

/-- Nothing is reported at the expression. -/
def Accepted (v : Visit F) : Prop := T.reports v.ctx v.expr = []

theorem Accepted.report_eq_nil {v : Visit F} (h : Accepted T v) {d : Demand}
    (hd : d ∈ T.demands v.ctx v.expr) : d.report v.ctx.currentCaps = [] := by
  have hnil : ((T.demands v.ctx v.expr).flatMap fun d => d.report v.ctx.currentCaps) = [] := by
    rw [Accepted, Tables.reports] at h
    split at h
    · exact (List.append_eq_nil_iff.mp h).2
    · exact (List.append_eq_nil_iff.mp h).1
  exact List.flatMap_eq_nil_iff.mp hnil d hd

theorem Demand.granted {d : Demand} {caps : CapabilitySet} (h : d.report (some caps) = [])
    {r : Capability} (hr : r ∈ d.required) : caps.satisfiesRequired r := by
  by_cases hsub : d.required.isSubsetOf caps
  · exact of_decide_eq_true hsub r hr
  · rw [Demand.report, if_neg hsub] at h
    cases h

/-- What an accepted expression inside `deny!` blocks needs is granted outside of them and denied by
none. -/
def RespectsDenials (initial : CapabilitySet) (v : Visit F) (denied : List (List String)) : Prop :=
  Accepted T v → denied ≠ [] → ∀ d ∈ T.demands v.ctx v.expr, ∀ r ∈ d.required,
    GrantedOutside initial denied r

theorem respectsDenials {v : Visit F} {p : Expr × Lexical} (h : VisitOf base v p) :
    RespectsDenials T (inForce base) v p.2.denied := by
  intro haccepted hne d hd r hr
  have hreport := haccepted.report_eq_nil T hd
  have hscopes : v.ctx.scopeStack = denyScopes base p.2.denied := h.2.2
  cases hdenied : p.2.denied with
  | nil => exact absurd hdenied hne
  | cons denied outer =>
    rw [hdenied] at hscopes
    rw [Context.currentCaps, hscopes] at hreport
    exact grantedOutside_of_denyScopes (Demand.granted hreport hr)

/-- Tables of an empty module. -/
def noTables : Tables Unit where
  mode := .inferred
  requiredCapabilityForPath := fun _ => none
  requiredCapabilityForBuiltin := fun _ => none
  requiredCapabilityForNativeSymbol := fun _ => none
  isKnownBuiltinName := fun _ => false
  definedFns := ∅
  actorNames := ∅
  enumVariantNames := ∅
  externFns := ∅
  declaredTypeNames := ∅
  fnCapabilities := fun _ => none
  isFnBearingType := fun _ => false
  functionFrame := fun _ _ => ()
  handlerFrame := fun _ => ()
  emptyFrame := ()
  accumulateHotExtraCaps := fun _ _ _ _ => ∅
  resolveMethodFieldInvokeCaps := fun _ _ _ => ∅
  resolveActorSelfFieldInvokeCaps := fun _ _ _ => ∅
  resolveDirectInvokeCaps := fun _ _ => ∅

def armSpan : Span := ⟨0, 0, 0⟩

/-- `fn apply(f) { match f { g => g() } }` -/
def armModule : Module where
  name := "arm"
  declarations := [.function "apply" [] [.mk "f" none none armSpan] none
    (some (.mk [.exprStmt (.matchExpr (.identifier "f" armSpan)
      [.mk (.ident "g" false armSpan) none (.fnCall (.identifier "g" armSpan) [] armSpan) armSpan]
      armSpan) armSpan] armSpan)) false false [] [] armSpan]
  span := armSpan

end Walk

end Kryos.Capabilities

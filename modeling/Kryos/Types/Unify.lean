import Kryos.Types.CapEngine
import Kryos.Types.CapRefs
import Kryos.Types.DenySettle
import Kryos.Types.Ty

/-!
# Unification

The whole inference engine: the substitution of the type variables, and the capability-row part.
`unify` resolves both types and decides by their heads what is to do (`decide`): nothing, fail, bind a
variable, or unify parts in order. Unifying two function types also lets the row of one flow into the
row of the other; in the parameters the flow runs the other way.

Resolution counts the nodes that it visits and gives up at `maxResolveNodes`; giving up ends the
whole pass, which is the result `aborted`. `outOfFuel` is a result of the model only.
-/

namespace Kryos.Types

open Relation Kryos.Ast Kryos.Capabilities

structure Engine where
  cap : CapEngine
  nextVar : TyVarId
  substitutions : AList fun _ : TyVarId => Ty
  traitImpls : List (String × String)
  varBounds : AList fun _ : TyVarId => List String
  lambdaParamCapVars : Finset CapVarId
  lambdaInputCapVars : Finset CapVarId
  contravariant : Bool

inductive UnifyError where
  | infiniteType (id : TyVarId) (ty : Ty)
  | traitNotImplemented (traitName typeName : String)
  | tupleLength (expected found : Nat)
  | paramCount (expected found : Nat)
  | mismatch (expected found : Ty)

inductive UnifyResult where
  | done (e : Engine)
  | failed (error : UnifyError) (e : Engine)
  | aborted
  | outOfFuel

/-- The engine that a call leaves behind. -/
def UnifyResult.engine : UnifyResult → Option Engine
  | .done e | .failed _ e => some e
  | .aborted | .outOfFuel => none

namespace Engine

def new : Engine where
  cap := .new
  nextVar := 0
  substitutions := ∅
  traitImpls := []
  varBounds := ∅
  lambdaParamCapVars := ∅
  lambdaInputCapVars := ∅
  contravariant := false

/-! ### Resolving types -/

def maxResolveNodes : Nat := 4096

/-- Resolve types one after the other, with one budget for all. -/
def resolveParts (resolve : Ty → Nat → Option (Ty × Nat)) :
    List Ty → Nat → Option (List Ty × Nat)
  | [], budget => some ([], budget)
  | t :: ts, budget =>
    match resolve t budget with
    | none => none
    | some (t, budget) =>
      match resolveParts resolve ts budget with
      | none => none
      | some (ts, budget) => some (t :: ts, budget)

/-- Resolve a type and return what is left of the budget. The first argument bounds the depth; a level
costs one node, so a depth of the budget is enough. -/
def resolveBounded (S : AList fun _ : TyVarId => Ty) : Nat → Ty → Nat → Option (Ty × Nat)
  | 0, _, _ => none
  | _, _, 0 => none
  | n + 1, t, budget + 1 =>
    match t with
    | .var id =>
      match S.lookup id with
      | some resolved => resolveBounded S n resolved budget
      | none => some (.var id, budget)
    | t =>
      match resolveParts (resolveBounded S n) t.children budget with
      | none => none
      | some (parts, budget) => some (t.rebuild parts, budget)

def resolve (e : Engine) (t : Ty) : Option Ty :=
  (resolveBounded e.substitutions maxResolveNodes t maxResolveNodes).map Prod.fst

/-- The variable occurs in the type, through the bindings. -/
def occursIn (e : Engine) (id : TyVarId) : Nat → Ty → Option Bool
  | 0, _ => none
  | n + 1, t =>
    match e.resolve t with
    | none => none
    | some (.var other) => some (other = id)
    | some t => t.children.foldl
      (fun found c => found.bind fun b => if b then some true else e.occursIn id n c) (some false)

/-! ### Rows -/

def recordLambdaStore (e : Engine) (storage : CapVarId) (row : CapRow) : Engine :=
  let rows := e.cap.lambdaStoresOf storage
  let cap := { e.cap with
    lambdaInputStores := e.cap.lambdaInputStores.insert storage
      (if row ∈ rows then rows else rows ++ [row]) }
  { e with cap := cap.storeIntoInput storage row }

/-- A variable of the destination row. The storage of a container that the body was handed is never
bound; the store is recorded instead. -/
def unifyDestination (source : CapRow) (e : Engine) (v : CapVarId) : Engine :=
  if v ∈ e.cap.inputStorageCapVars ∧ e.cap.isFrozen v then
    if v ∈ e.lambdaInputCapVars then e.recordLambdaStore v source
    else { e with cap := e.cap.recordParamStore v source }
  else if e.cap.isBound v = false ∨ v ∈ e.cap.slotCapVars then
    { e with cap := e.cap.bindCapVar v source }
  else e

/-- A variable of the source row, when the destination was closed. -/
def unifySource (destination : CapRow) (e : Engine) (v : CapVarId) : Engine :=
  if (e.cap.isBound v = false ∨ v ∈ e.lambdaParamCapVars) ∧ e.cap.isFrozen v = false then
    { e with cap := e.cap.bindCapVar v destination }
  else e

/-- The row `c2` flows into the row `c1`. -/
def unifyRows (e : Engine) (c1 c2 : CapRow) : Engine :=
  if c1 = c2 ∨ c1 = .unknown then e
  else
    let before := e.cap.resolveCapRow c1
    let e := (ascending c1.varIds).foldl (unifyDestination c2) e
    if before.isClosed ∧ c2 ≠ .unknown then (ascending c2.varIds).foldl (unifySource before) e
    else e

def freshSlotCapVar (σ : CapEngine) : CapVarId × CapEngine :=
  let (slot, σ) := σ.freshCapVar
  (slot, σ.markSlot slot false)

/-- A row that refers to storage: the row itself if it does already, or a new slot that holds it. -/
def slotRowFor (keepSlotRefs : Bool) (row : CapRow) (σ : CapEngine) : CapRow × CapEngine :=
  match row with
  | .unknown => (.unknown, σ)
  | .resolved concrete vars =>
    if keepSlotRefs ∧ concrete = ∅ ∧ vars ≠ ∅ ∧ vars ⊆ σ.slotCapVars then
      (.resolved concrete vars, σ)
    else
      let (slot, σ) := freshSlotCapVar σ
      (.var slot, σ.bindCapVar slot (.resolved concrete vars))

/-- Thread a state through the parts of a type. -/
def mapParts {β : Type} : (parts : List Ty) → ((c : Ty) → c ∈ parts → β → Ty × β) → β →
    List Ty × β
  | [], _, σ => ([], σ)
  | c :: cs, f, σ =>
    let (c', σ) := f c List.mem_cons_self σ
    let (cs', σ) := mapParts cs (fun d hd => f d (List.mem_cons_of_mem c hd)) σ
    (c' :: cs', σ)

/-- Let every row of a value, and of what it returns, refer to storage. -/
def generalizeRows (keepSlotRefs : Bool) (t : Ty) (σ : CapEngine) : Ty × CapEngine :=
  if t.typeHasFn = false then (t, σ)
  else
    match t with
    | .function params ret caps =>
      let (ret, σ) := generalizeRows keepSlotRefs ret σ
      let (caps, σ) := slotRowFor keepSlotRefs caps σ
      (.function params ret caps, σ)
    | t =>
      let (parts, σ) := mapParts t.children (fun c _ => generalizeRows keepSlotRefs c) σ
      (t.rebuild parts, σ)
termination_by sizeOf t
decreasing_by
  · simp
    omega
  · exact Ty.sizeOf_lt_of_mem_children ‹_›

/-! ### Binding a type variable -/

def implementsTrait (e : Engine) (typeName traitName : String) : Bool :=
  (typeName, traitName) ∈ e.traitImpls

/-- The first of the bounds that a type does not satisfy. -/
def missingBound (holds : String → Bool) (typeName : String) (bounds : List String) :
    Option UnifyError :=
  (bounds.find? fun b => !holds b).map fun b => .traitNotImplemented b typeName

/-- The bounds of a variable that gets bound. Another variable takes them over. -/
def checkVarBounds (e : Engine) (id : TyVarId) (boundTo : Ty) : Except UnifyError Engine :=
  match e.varBounds.lookup id with
  | none => .ok e
  | some bounds =>
    let check (error : Option UnifyError) := match error with
      | none => Except.ok e
      | some error => .error error
    match boundTo with
    | .var other =>
      let entry := (e.varBounds.lookup other).getD []
      .ok { e with varBounds := e.varBounds.insert other (bounds.foldl CapEngine.addNew entry) }
    | .error => .ok e
    | .dynTrait traitName =>
      check (missingBound (· = traitName) ("dyn " ++ traitName) bounds)
    | .struct name _ | .enum name _ => check (missingBound (e.implementsTrait name) name bounds)
    | other =>
      check (missingBound (e.implementsTrait other.display) other.display bounds)

/-- Bind a variable to a resolved type that it does not occur in. -/
def bindVar (e : Engine) (id : TyVarId) (t : Ty) : UnifyResult :=
  match e.occursIn id maxResolveNodes t with
  | none => .aborted
  | some true => .failed (.infiniteType id t) e
  | some false =>
    match e.checkVarBounds id t with
    | .error error => .failed error e
    | .ok e =>
      let (t, cap) := generalizeRows true t e.cap
      .done { e with cap, substitutions := e.substitutions.insert id t }

/-! ### Unification -/

/-- What two resolved types that are not equal call for. -/
inductive Task where
  | nothing
  | fail (error : UnifyError)
  | bind (id : TyVarId) (t : Ty)
  | parts (pairs : List (Ty × Ty))
  | function (params : List (Ty × Ty)) (ret : Ty × Ty) (rows : CapRow × CapRow)

/-- The type of any callable, `fn(any) -> any`. -/
def isOpaque : List Ty → Ty → Bool
  | [.error], .error => true
  | _, _ => false

/-- Two types with different heads, and no rule that takes their parts together. -/
def decideCoercion (e : Engine) (a b : Ty) : Task :=
  let coerce (structName traitName : String) : Task :=
    if e.implementsTrait structName traitName then .nothing
    else .fail (.traitNotImplemented traitName structName)
  match a, b with
  | .struct name _, .dynTrait traitName => coerce name traitName
  | .dynTrait traitName, .struct name _ => coerce name traitName
  | a, b =>
    if a = .prim .never ∨ b = .prim .never then .nothing
    else if a.isIntWidening b ∨ b.isIntWidening a then .nothing
    else if (a = .prim .usize ∨ a = .prim .isize) ∧ b.isInteger then .nothing
    else if (b = .prim .usize ∨ b = .prim .isize) ∧ a.isInteger then .nothing
    else .fail (.mismatch a b)

/-- The builtin `Result` and the enum of that name. Without its payload types the enum is erased. -/
def bridgeResult (ok err : Ty) : List Ty → Task
  | [g, g'] => .parts [(ok, g), (err, g')]
  | _ => .nothing

def bridgeOption (inner : Ty) : List Ty → Task
  | [g] => .parts [(inner, g)]
  | _ => .nothing

def decide (e : Engine) : Ty → Ty → Task
  | .var id, b => .bind id b
  | a, .var id => .bind id a
  | .array t _, .array t' _ => .parts [(t, t')]
  | .tuple ts, .tuple ts' =>
    if ts.length ≠ ts'.length then .fail (.tupleLength ts.length ts'.length)
    else .parts (ts.zip ts')
  | .map k v, .map k' v' => .parts [(k, k'), (v, v')]
  | .set t, .set t' => .parts [(t, t')]
  | .option t, .option t' => .parts [(t, t')]
  | .result t u, .result t' u' => .parts [(t, t'), (u, u')]
  | a@(.result ok err), b@(.enum name generics) =>
    if name = "Result" then bridgeResult ok err generics else e.decideCoercion a b
  | a@(.enum name generics), b@(.result ok err) =>
    if name = "Result" then bridgeResult ok err generics else e.decideCoercion a b
  | a@(.option inner), b@(.enum name generics) =>
    if name = "Option" then bridgeOption inner generics else e.decideCoercion a b
  | a@(.enum name generics), b@(.option inner) =>
    if name = "Option" then bridgeOption inner generics else e.decideCoercion a b
  | a@(.struct n ts), b@(.struct n' ts') =>
    if n = n' ∧ ts.length = ts'.length then .parts (ts.zip ts') else e.decideCoercion a b
  | a@(.enum n ts), b@(.enum n' ts') =>
    if n = n' ∧ (n = "Result" ∨ n = "Option") ∧ ts.length ≠ ts'.length ∧ (ts = [] ∨ ts' = []) then
      .nothing
    else if n = n' ∧ ts.length = ts'.length then .parts (ts.zip ts')
    else e.decideCoercion a b
  | .function ps r c, .function ps' r' c' =>
    if isOpaque ps r ∨ isOpaque ps' r' then .nothing
    else if ps.length ≠ ps'.length then .fail (.paramCount ps.length ps'.length)
    else .function (ps.zip ps') (r, r') (c, c')
  | a@(.reference t m), b@(.reference t' m') =>
    if m = m' then .parts [(t, t')] else e.decideCoercion a b
  | .shared t, .shared t' => .parts [(t, t')]
  | .weak t, .weak t' => .parts [(t, t')]
  | a@(.pointer t m), b@(.pointer t' m') =>
    if m = m' then .parts [(t, t')] else e.decideCoercion a b
  | a, b => e.decideCoercion a b

/-- Unify pairs in order, up to the first failure. -/
def unifyAll (unify : Ty → Ty → Engine → UnifyResult) :
    List (Ty × Ty) → Engine → UnifyResult
  | [], e => .done e
  | (a, b) :: pairs, e =>
    match unify a b e with
    | .done e => unifyAll unify pairs e
    | other => other

/-- The parameters of two function types. The flag is put back also when they fail. -/
def unifyParams (unify : Ty → Ty → Engine → UnifyResult) (params : List (Ty × Ty)) (e : Engine) :
    UnifyResult :=
  match unifyAll unify params { e with contravariant := !e.contravariant } with
  | .done e' => .done { e' with contravariant := e.contravariant }
  | .failed error e' => .failed error { e' with contravariant := e.contravariant }
  | other => other

/-- The row of one function type flows into the row of the other. -/
def flowRows (e : Engine) (rows : CapRow × CapRow) (contravariant : Bool) : Engine :=
  if contravariant then e.unifyRows rows.2 rows.1 else e.unifyRows rows.1 rows.2

def perform (unify : Ty → Ty → Engine → UnifyResult) (e : Engine) : Task → UnifyResult
  | .nothing => .done e
  | .fail error => .failed error e
  | .bind id t => e.bindVar id t
  | .parts pairs => unifyAll unify pairs e
  | .function params ret rows =>
    match unifyParams unify params e with
    | .done e' =>
      match unify ret.1 ret.2 e' with
      | .done e'' => .done (e''.flowRows rows e.contravariant)
      | other => other
    | other => other

def unify : Nat → Ty → Ty → Engine → UnifyResult
  | 0, _, _, _ => .outOfFuel
  | n + 1, a, b, e =>
    match e.resolve a, e.resolve b with
    | some a, some b =>
      if a = .error ∨ b = .error then .done e
      else if a = b then .done e
      else e.perform (unify n) (e.decide a b)
    | _, _ => .aborted

/-! ### What unification does to the engine -/

variable {e e' : Engine} {id : TyVarId}

theorem checkVarBounds_ok {t : Ty} (h : e.checkVarBounds id t = .ok e') :
    ∃ varBounds, e' = { e with varBounds } := by
  have hcheck : ∀ error : Option UnifyError,
      (match error with
        | none => Except.ok e
        | some error => .error error) = .ok e' → ∃ varBounds, e' = { e with varBounds } := by
    intro error herror
    cases error with
    | none =>
      obtain rfl := Except.ok.inj herror
      exact ⟨e.varBounds, rfl⟩
    | some error => cases herror
  rw [checkVarBounds.eq_def] at h
  dsimp only at h
  split at h
  · obtain rfl := Except.ok.inj h
    exact ⟨e.varBounds, rfl⟩
  · split at h
    · obtain rfl := Except.ok.inj h
      exact ⟨_, rfl⟩
    · obtain rfl := Except.ok.inj h
      exact ⟨e.varBounds, rfl⟩
    all_goals exact hcheck _ h

theorem bindVar_done {t : Ty} (h : e.bindVar id t = .done e') :
    e.occursIn id maxResolveNodes t = some false ∧ ∃ varBounds,
      e' = { e with
        varBounds
        cap := (generalizeRows true t e.cap).2
        substitutions := e.substitutions.insert id (generalizeRows true t e.cap).1 } := by
  rw [bindVar] at h
  split at h
  · cases h
  · cases h
  · rename_i hocc
    split at h
    · cases h
    · rename_i hbounds
      obtain ⟨varBounds, rfl⟩ := checkVarBounds_ok hbounds
      obtain rfl := UnifyResult.done.inj h
      exact ⟨hocc, varBounds, rfl⟩

theorem bindVar_failed {t : Ty} {error : UnifyError} (h : e.bindVar id t = .failed error e') :
    e' = e := by
  rw [bindVar] at h
  split at h
  · cases h
  · exact (UnifyResult.failed.inj h).2.symm
  · split at h
    · exact (UnifyResult.failed.inj h).2.symm
    · cases h

theorem foldl_rows {f : Engine → CapVarId → Engine} (hf : ∀ e v, ∃ cap, f e v = { e with cap })
    (vs : List CapVarId) (e : Engine) : ∃ cap, vs.foldl f e = { e with cap } := by
  induction vs generalizing e with
  | nil => exact ⟨e.cap, rfl⟩
  | cons v vs ih =>
    obtain ⟨cap, hcap⟩ := hf e v
    obtain ⟨cap', hcap'⟩ := ih (f e v)
    refine ⟨cap', ?_⟩
    rw [List.foldl_cons, hcap', hcap]

/-- The rows are all that `unifyRows` touches. -/
theorem unifyRows_eq (e : Engine) (c1 c2 : CapRow) : ∃ cap, e.unifyRows c1 c2 = { e with cap } := by
  have hdest : ∀ e v, ∃ cap, unifyDestination c2 e v = { e with cap } := by
    intro e v
    rw [unifyDestination]
    split_ifs
    all_goals exact ⟨_, rfl⟩
  have hsource : ∀ row e v, ∃ cap, unifySource row e v = { e with cap } := by
    intro row e v
    rw [unifySource]
    split_ifs
    all_goals exact ⟨_, rfl⟩
  rw [unifyRows]
  dsimp only
  obtain ⟨cap, hcap⟩ := foldl_rows hdest (ascending c1.varIds) e
  split_ifs
  · exact ⟨e.cap, rfl⟩
  · rw [hcap]
    exact foldl_rows (hsource _) _ _
  · exact ⟨cap, hcap⟩

/-- One change that `unify` makes. It binds only a variable that has no binding, to a type that it
has resolved. -/
inductive Step : Engine → Engine → Prop
  | flag (e : Engine) (contravariant : Bool) : Step e { e with contravariant }
  | rows (e : Engine) (c1 c2 : CapRow) : Step e (e.unifyRows c1 c2)
  | bind {e e' : Engine} {a b t : Ty} {id : TyVarId} (ha : e.resolve a = some (.var id))
      (hb : e.resolve b = some t) (hne : t ≠ .var id) (h : e.bindVar id t = .done e') : Step e e'

/-- A call of `f` changes the engine by steps only. -/
def Steps (f : Ty → Ty → Engine → UnifyResult) : Prop :=
  ∀ a b e e', (f a b e).engine = some e' → ReflTransGen Step e e'

variable {f : Ty → Ty → Engine → UnifyResult}

theorem steps_unifyAll (hf : Steps f) (pairs : List (Ty × Ty)) (e e' : Engine)
    (h : (unifyAll f pairs e).engine = some e') : ReflTransGen Step e e' := by
  induction pairs generalizing e with
  | nil =>
    obtain rfl := Option.some.inj h
    exact .refl
  | cons p pairs ih =>
    rw [unifyAll] at h
    split at h
    · rename_i e₁ he₁
      exact (hf p.1 p.2 e e₁ (by rw [he₁]; rfl)).trans (ih e₁ h)
    · exact hf p.1 p.2 e e' h

theorem steps_unifyParams (hf : Steps f) (params : List (Ty × Ty)) (e e' : Engine)
    (h : (unifyParams f params e).engine = some e') : ReflTransGen Step e e' := by
  have hflip : ReflTransGen Step e { e with contravariant := !e.contravariant } :=
    .single (.flag e _)
  rw [unifyParams] at h
  split at h
  · rename_i e₁ he₁
    obtain rfl := Option.some.inj h
    exact (hflip.trans (steps_unifyAll hf _ _ e₁ (by rw [he₁]; rfl))).tail (.flag _ _)
  · rename_i error e₁ he₁
    obtain rfl := Option.some.inj h
    exact (hflip.trans (steps_unifyAll hf _ _ e₁ (by rw [he₁]; rfl))).tail (.flag _ _)
  · exact hflip.trans (steps_unifyAll hf _ _ _ h)

theorem steps_flowRows (e : Engine) (rows : CapRow × CapRow) (contravariant : Bool) :
    Step e (e.flowRows rows contravariant) := by
  rw [flowRows]
  split
  · exact .rows e _ _
  · exact .rows e _ _

theorem decideCoercion_ne_bind (e : Engine) (a b t : Ty) (id : TyVarId) :
    e.decideCoercion a b ≠ .bind id t := by
  rw [decideCoercion.eq_def]
  grind

theorem bridgeResult_ne_bind (ok err t : Ty) (generics : List Ty) (id : TyVarId) :
    bridgeResult ok err generics ≠ .bind id t := by
  fun_cases bridgeResult ok err generics
  all_goals nofun

theorem bridgeOption_ne_bind (inner t : Ty) (generics : List Ty) (id : TyVarId) :
    bridgeOption inner generics ≠ .bind id t := by
  fun_cases bridgeOption inner generics
  all_goals nofun

theorem flowRows_flag (e : Engine) (rows : CapRow × CapRow) (contravariant : Bool) :
    (e.flowRows rows contravariant).contravariant = e.contravariant := by
  rw [flowRows]
  split
  · obtain ⟨cap, hcap⟩ := e.unifyRows_eq rows.2 rows.1
    rw [hcap]
  · obtain ⟨cap, hcap⟩ := e.unifyRows_eq rows.1 rows.2
    rw [hcap]

/-- What `decide` wants bound is one of the two types, and a variable. -/
theorem decide_eq_bind {a b t : Ty} (h : e.decide a b = .bind id t) :
    (a = .var id ∧ b = t) ∨ (b = .var id ∧ a = t) := by
  revert h
  fun_cases decide e a b
  all_goals grind [decideCoercion_ne_bind, bridgeResult_ne_bind, bridgeOption_ne_bind]

theorem steps_perform (hf : Steps f) {a b a' b' : Ty} (ha : e.resolve a = some a')
    (hb : e.resolve b = some b') (hne : a' ≠ b')
    (h : (e.perform f (e.decide a' b')).engine = some e') : ReflTransGen Step e e' := by
  cases htask : e.decide a' b' with
  | nothing | fail =>
    rw [htask] at h
    obtain rfl := Option.some.inj h
    exact .refl
  | bind id t =>
    rw [htask, perform] at h
    cases hr : e.bindVar id t with
    | done e₁ =>
      rw [hr] at h
      obtain rfl := Option.some.inj h
      rcases decide_eq_bind htask with ⟨rfl, rfl⟩ | ⟨rfl, rfl⟩
      · exact .single (.bind ha hb hne.symm hr)
      · exact .single (.bind hb ha hne hr)
    | failed error e₁ =>
      rw [hr] at h
      obtain rfl := Option.some.inj h
      rw [bindVar_failed hr]
    | aborted | outOfFuel =>
      rw [hr] at h
      cases h
  | parts pairs =>
    rw [htask] at h
    exact steps_unifyAll hf pairs e e' h
  | function params ret rows =>
    rw [htask, perform] at h
    split at h
    · rename_i e₁ he₁
      have hparams := steps_unifyParams hf params e e₁ (by rw [he₁]; rfl)
      split at h
      · rename_i e₂ he₂
        obtain rfl := Option.some.inj h
        exact (hparams.trans (hf _ _ e₁ e₂ (by rw [he₂]; rfl))).tail (steps_flowRows _ _ _)
      · exact hparams.trans (hf _ _ e₁ e' h)
    · exact steps_unifyParams hf params e e' h

theorem unify_steps (n : Nat) : Steps (unify n) := by
  induction n with
  | zero =>
    intro a b e e' h
    cases h
  | succ n ih =>
    intro a b e e' h
    rw [unify] at h
    split at h
    · rename_i ha hb
      split at h
      · obtain rfl := Option.some.inj h
        exact .refl
      · split at h
        · obtain rfl := Option.some.inj h
          exact .refl
        · rename_i hne
          exact steps_perform ih ha hb hne h
    · cases h

end Engine

end Kryos.Types

import Kryos.Decl
import Kryos.Types.Ty

/-!
# The method table

Registration of traits and impl blocks. A method of a type is found in a hash table that keeps the
signatures of an impl block under its type and its trait: those that the block writes, and those
that it inherits from the trait. A lookup goes over the entries in the order of the table and takes
the first method of the name.

## Main definitions

* `MethodTable.register` — what a trait or an impl block does to the tables
* `MethodTable.lookupMethod` — the lookup, in one order of the entries
* `MethodTable.history` — the declarations with the signatures that registration gave them
-/

namespace Kryos.Types.MethodTable

open Ast

/-! ## Declarations and signatures -/

/-- A function declaration as far as registration reads it. -/
structure Method where
  name : String
  generics : List String
  params : List (String × Option TypeExpr)
  retTy : Option TypeExpr
  hasBody : Bool

def paramOf : Param → String × Option TypeExpr
  | .mk name ty _ _ => (name, ty)

/-- Only functions count among the methods of a declaration. -/
def methodOf : Decl → Option Method
  | .function name generics params retTy body .. =>
    some ⟨name, generics.map GenericParam.name, params.map paramOf, retTy, body.isSome⟩
  | _ => none

/-- A trait or an impl block. -/
inductive Item where
  | trait (name : String) (generics : List GenericParam) (methods : List Decl)
  | impl (target : String) (traitName : Option String) (generics : List GenericParam)
      (methods : List Decl)

@[ext]
structure FunctionSig where
  name : String
  genericParams : List String
  genericVarIds : List TyVarId
  genericCapVarIds : List CapVarId
  ownCapVar : Nat
  params : List (String × Ty)
  ret : Ty
  deriving DecidableEq

structure TraitDef where
  name : String
  genericParams : List String
  methods : List FunctionSig

/-- The variables that the engine has given out. -/
structure Engine where
  nextVar : Nat
  nextCapVar : Nat

/-- What registration asks of the structs and enums, which are registered before, and of the
resolution of type expressions. -/
structure Resolver where
  isStruct : String → Bool
  isEnum : String → Bool
  /-- how many row variables an expression takes -/
  rows : TypeExpr → Nat
  /-- the type, for `Self`, the type variables in scope and the row variables -/
  resolve : Option Ty → List (String × TyVarId) → TypeExpr → List CapVarId → Ty

variable (r : Resolver)

/-- The type that an impl block is for. -/
def Resolver.targetTy (target : String) : Option Ty :=
  if r.isStruct target then some (.struct target [])
  else if r.isEnum target then some (.enum target [])
  else none

def freshVar (engine : Engine) : Nat × Engine :=
  (engine.nextVar, { engine with nextVar := engine.nextVar + 1 })

def freshCapVar (engine : Engine) : Nat × Engine :=
  (engine.nextCapVar, { engine with nextCapVar := engine.nextCapVar + 1 })

def bindGenerics : List String → Engine → List (String × TyVarId) × Engine
  | [], engine => ([], engine)
  | g :: gs, engine =>
    let (v, engine) := freshVar engine
    let (scope, engine) := bindGenerics gs engine
    ((g, v) :: scope, engine)

/-- What type expressions are resolved in. -/
structure Context where
  selfTy : Option Ty
  typeVars : List (String × TyVarId)
  /-- the type of a `self` without annotation -/
  receiver : Option Ty

def resolveTypeExpr (c : Context) (ty : TypeExpr) (engine : Engine) : Ty × List CapVarId × Engine :=
  let ids := List.range' engine.nextCapVar (r.rows ty)
  (r.resolve c.selfTy c.typeVars ty ids, ids,
    { engine with nextCapVar := engine.nextCapVar + r.rows ty })

def paramTy (c : Context) (name : String) (ty : Option TypeExpr) (engine : Engine) :
    Ty × List CapVarId × Engine :=
  match ty, if name = "self" then c.receiver else none with
  | some ty, _ => resolveTypeExpr r c ty engine
  | none, some receiver => (receiver, [], engine)
  | none, none =>
    let (v, engine) := freshVar engine
    (.var v, [], engine)

def paramTypes (c : Context) : List (String × Option TypeExpr) → Engine →
    List (String × Ty) × List CapVarId × Engine
  | [], engine => ([], [], engine)
  | (name, ty) :: params, engine =>
    let (ty, ids, engine) := paramTy r c name ty engine
    let (tys, ids', engine) := paramTypes c params engine
    ((name, ty) :: tys, ids ++ ids', engine)

def retTy (c : Context) : Option TypeExpr → Engine → Ty × List CapVarId × Engine
  | some ty, engine => resolveTypeExpr r c ty engine
  | none, engine => (.prim .void, [], engine)

def methodSig (c : Context) (genericVarIds : List TyVarId) (m : Method) (engine : Engine) :
    FunctionSig × Engine :=
  let (params, ids, engine) := paramTypes r c m.params engine
  let (ret, ids', engine) := retTy r c m.retTy engine
  let (own, engine) := freshCapVar engine
  ({ name := m.name
     genericParams := m.generics
     genericVarIds := genericVarIds
     genericCapVarIds := ids ++ ids'
     ownCapVar := own
     params := params
     ret := ret }, engine)

def methodSigs (c : Context) (genericVarIds : List TyVarId) :
    List Method → Engine → List FunctionSig × Engine
  | [], engine => ([], engine)
  | m :: ms, engine =>
    let (sig, engine) := methodSig r c genericVarIds m engine
    let (sigs, engine) := methodSigs c genericVarIds ms engine
    (sig :: sigs, engine)

/-! ## The tables -/

abbrev Key := String × Option String

/-- An impl block under its type and its trait. -/
abbrev Entry := Key × List FunctionSig

/-- Where a repeated parameter or generic parameter stands. -/
inductive Site where
  | method (name : String)
  | impl (target : String)
  | trait (name : String)
  deriving DecidableEq, Repr

inductive Diagnostic where
  /-- duplicate generic parameter `{name}` on {what} -/
  | duplicateGeneric (name : String) (what : Site)
  /-- duplicate parameter `{name}` in {what} -/
  | duplicateParam (name : String) (what : Site)
  /-- type `{target}` already has a method named `{name}` from another impl block -/
  | alreadyHasMethod (target name : String)
  /-- type `{target}` defines method `{name}` twice in the same impl block -/
  | twiceInBlock (target name : String)
  /-- trait `{traitName}` declares method `{name}` twice -/
  | twiceInTrait (traitName name : String)
  deriving DecidableEq, Repr

structure Env where
  traits : List TraitDef
  impls : List Entry
  engine : Engine
  diagnostics : List Diagnostic

namespace Env

def defineTrait (env : Env) (d : TraitDef) : List TraitDef :=
  d :: env.traits.filter fun d' => d'.name ≠ d.name

def lookupTrait (env : Env) (name : String) : Option TraitDef :=
  env.traits.find? fun d => d.name = name

def defineImpl (env : Env) (key : Key) (sigs : List FunctionSig) : List Entry :=
  (key, sigs) :: env.impls.filter fun e => e.1 ≠ key

end Env

/-- The first method of the name, in this order of the entries. -/
def lookupMethod (entries : List Entry) (typeName methodName : String) : Option FunctionSig :=
  entries.findSome? fun e =>
    if e.1.1 = typeName then e.2.find? fun sig => sig.name = methodName else none

/-- The order in which the table is gone over. -/
structure Order where
  list : List Entry → List Entry
  perm : ∀ entries, (list entries).Perm entries

/-! ## Registration -/

/-- The names that have come before. -/
def repeated : List String → List String → List String
  | _, [] => []
  | seen, name :: names =>
    if name ∈ seen then name :: repeated seen names else repeated (name :: seen) names

def checkDuplicateGenerics (what : Site) (generics : List String) : List Diagnostic :=
  (repeated [] generics).map (.duplicateGeneric · what)

/-- `_` may be repeated. -/
def checkDuplicateParams (what : Site) (params : List (String × Option TypeExpr)) :
    List Diagnostic :=
  (repeated [] ((params.map Prod.fst).filter (· ≠ "_"))).map (.duplicateParam · what)

def checkMethod (m : Method) : List Diagnostic :=
  checkDuplicateParams (.method m.name) m.params ++ checkDuplicateGenerics (.method m.name) m.generics

/-- The checks on the methods of a declaration, which `seen` come before. -/
def checkMethods (collision : Method → List Diagnostic) (twice : String → Diagnostic) :
    List String → List Method → List Diagnostic
  | _, [] => []
  | seen, m :: ms =>
    collision m ++ (if m.name ∈ seen then [twice m.name] else []) ++ checkMethod m ++
      checkMethods collision twice (m.name :: seen) ms

/-- `entries` are the blocks that came before. -/
def checkImplMethods (entries : List Entry) (target : String) (ms : List Method) :
    List Diagnostic :=
  checkMethods
    (fun m => if (lookupMethod entries target m.name).isSome then [.alreadyHasMethod target m.name]
      else [])
    (.twiceInBlock target) [] ms

def checkTraitMethods (name : String) (ms : List Method) : List Diagnostic :=
  checkMethods (fun _ => []) (.twiceInTrait name) [] ms

/-- A method of a trait as a type that implements the trait inherits it. -/
def rewriteSelf (target : Option Ty) (sig : FunctionSig) : FunctionSig :=
  { sig with params := sig.params.map fun p =>
      if p.1 = "self" then (p.1, target.getD p.2) else p }

def inheritedSigs (target : Option Ty) (written methods : List FunctionSig) : List FunctionSig :=
  (methods.filter fun sig => sig.name ∉ written.map FunctionSig.name).map (rewriteSelf target)

/-- The signatures that the methods of a declaration get. -/
def declaredSigs : Item → Engine → List FunctionSig × Engine
  | .trait name generics methods, engine =>
    let (typeVars, engine) := bindGenerics (generics.map GenericParam.name) engine
    methodSigs r ⟨some (.dynTrait name), typeVars, none⟩ [] (methods.filterMap methodOf) engine
  | .impl target _ generics methods, engine =>
    let (typeVars, engine) := bindGenerics (generics.map GenericParam.name) engine
    methodSigs r ⟨r.targetTy target, typeVars, r.targetTy target⟩ (typeVars.map Prod.snd)
      (methods.filterMap methodOf) engine

def register (order : Order) (env : Env) : Item → Env
  | .trait name generics methods =>
    let (sigs, engine) := declaredSigs r (.trait name generics methods) env.engine
    { env with
      traits := env.defineTrait ⟨name, generics.map GenericParam.name, sigs⟩
      engine := engine
      diagnostics := env.diagnostics ++
        checkTraitMethods name (methods.filterMap methodOf) ++
        checkDuplicateGenerics (.trait name) (generics.map GenericParam.name) }
  | .impl target traitName generics methods =>
    let (sigs, engine) := declaredSigs r (.impl target traitName generics methods) env.engine
    let inherited := match traitName.bind env.lookupTrait with
      | some d => inheritedSigs (r.targetTy target) sigs d.methods
      | none => []
    { env with
      impls := env.defineImpl (target, traitName) (sigs ++ inherited)
      engine := engine
      diagnostics := env.diagnostics ++
        checkDuplicateGenerics (.impl target) (generics.map GenericParam.name) ++
        checkImplMethods (order.list env.impls) target (methods.filterMap methodOf) }

def registerAll (order : Order) (env : Env) (items : List Item) : Env :=
  items.foldl (register r order) env

/-- Nothing is registered, and the engine has given out some variables. -/
def Env.start (engine : Engine) : Env := ⟨[], [], engine, []⟩

end Kryos.Types.MethodTable

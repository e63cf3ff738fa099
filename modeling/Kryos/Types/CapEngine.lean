import Mathlib
import Kryos.Ast
import Kryos.Lib.Reach
import Kryos.Types.CapRow

/-!
# The capability-row part of the inference engine

The engine keeps one substitution from row variables to rows. A binding only widens: a variable
that is bound already gets the union of what it had and what is new. Some variables stand for
storage, and a store into a container that a body was handed reaches the storage of the argument
as soon as the argument is known, so one binding can set off others.

The recursion between `bindCapVar` and `storeIntoInput` takes fuel. Each level of it is a binding
that changed something, so `bindFuel` levels are always enough (`bindCapVar_eq`).
-/

namespace Kryos.Types

open Kryos.Ast Kryos.Capabilities

/-- A hash map keyed by row variables. -/
abbrev VarMap (β : Type) := AList fun _ : CapVarId => β

/-- The elements of a set in ascending order. -/
def ascending (s : Finset ℕ) : List ℕ :=
  (List.range (s.sup id + 1)).filter (· ∈ s)

theorem mem_ascending {s : Finset ℕ} {n : ℕ} : n ∈ ascending s ↔ n ∈ s := by
  rw [ascending, List.mem_filter, List.mem_range, decide_eq_true_eq, Nat.lt_succ_iff]
  exact ⟨fun h => h.2, fun h => ⟨Finset.le_sup (f := id) h, h⟩⟩

/-- What is recorded while one declaration body is checked. -/
structure EffectScope where
  poly : Finset CapVarId
  touched : List CapVarId
  paramStores : List (CapVarId × CapRow)
  owner : Option CapVarId
deriving DecidableEq

/-- A `deny!` block whose verdict is taken when the whole module has been checked. -/
structure DenyObligation where
  denied : List String
  row : CapRow
  span : Span
  owner : Option CapVarId
  via : Option Span
deriving DecidableEq

/-- A reference to a declaration: the own-row variable of the callee, and the copies that this
reference made of the polymorphic row variables of the callee. -/
structure Instantiation where
  owner : Option CapVarId
  callee : CapVarId
  map : VarMap CapVarId
  span : Span
  ownCopy : Option CapVarId
deriving DecidableEq

/-- A capability that a `deny!` block denies and that its authority includes. -/
structure DenyViolation where
  span : Span
  denied : String
  via : Option Span
deriving DecidableEq

structure CapEngine where
  nextCapVar : CapVarId
  capSubstitutions : VarMap CapRow
  slotCapVars : Finset CapVarId
  globalSlotCapVars : Finset CapVarId
  inputStorageCapVars : Finset CapVarId
  frozenCapVars : Finset CapVarId
  effectScope : Option EffectScope
  storeEffects : VarMap (List (CapVarId × CapRow))
  deferredInputStores : VarMap (List CapRow)
  lambdaInputStores : VarMap (List CapRow)
  denyObligations : List DenyObligation
  instantiations : List Instantiation
  ownerPoly : VarMap (Finset CapVarId)
  dispatchOwners : Finset CapVarId
  capEpoch : ℕ

namespace CapEngine

def new : CapEngine where
  nextCapVar := 0
  capSubstitutions := ∅
  slotCapVars := ∅
  globalSlotCapVars := ∅
  inputStorageCapVars := ∅
  frozenCapVars := ∅
  effectScope := none
  storeEffects := ∅
  deferredInputStores := ∅
  lambdaInputStores := ∅
  denyObligations := []
  instantiations := []
  ownerPoly := ∅
  dispatchOwners := ∅
  capEpoch := 0

/-- The row a variable is bound to. -/
def binding (σ : CapEngine) (v : CapVarId) : Option CapRow := σ.capSubstitutions.lookup v

def isBound (σ : CapEngine) (v : CapVarId) : Bool := (σ.binding v).isSome

/-! ### Resolution -/

/-- The variables in the row that a variable is bound to. -/
def succs (σ : CapEngine) (v : CapVarId) : Finset CapVarId :=
  match σ.binding v with
  | some row => row.varIds
  | none => ∅

/-- The variables that can be reached from `start`, not going on from those in `stop`. -/
def reachable (σ : CapEngine) (stop start : Finset CapVarId) : Finset CapVarId :=
  Reach.reach (fun v => if v ∈ stop then ∅ else σ.succs v) σ.capSubstitutions.keys.length start

/-- The variable lies on a cycle of the substitution. -/
def onCycle (σ : CapEngine) (v : CapVarId) : Bool :=
  v ∈ σ.reachable ∅ (σ.succs v)

/-- The row that the variables of `visited` hold together. The variables of `keep` stay in the row
as they are, and so do the unbound ones and those on a cycle. -/
def collect (σ : CapEngine) (keep visited : Finset CapVarId) : CapRow :=
  if ∃ v ∈ visited, v ∉ keep ∧ σ.binding v = some .unknown then .unknown
  else
    .resolved
      ((visited \ keep).sup fun v => ((σ.binding v).getD .empty).concreteBits)
      (visited.filter fun v => v ∈ keep ∨ !σ.isBound v ∨ σ.onCycle v)

def resolveCapVar (σ : CapEngine) (v : CapVarId) : CapRow :=
  σ.collect ∅ (σ.reachable ∅ {v})

def resolveCapRow (σ : CapEngine) : CapRow → CapRow
  | .unknown => .unknown
  | .resolved concrete vars => .closed concrete ⊔ vars.sup σ.resolveCapVar

/-- Like `resolveCapRow`, but a global slot stays in the row as a reference to the storage. -/
def resolveCapRowKeepingSlots (σ : CapEngine) : CapRow → CapRow
  | .unknown => .unknown
  | .resolved concrete vars =>
    if vars = ∅ then .resolved concrete vars
    else
      (σ.collect σ.globalSlotCapVars (σ.reachable σ.globalSlotCapVars vars)).unionBits concrete

/-- A row as one reference sees it: resolved as far as it is known, and what is still open
replaced by the copies of the reference. -/
def instantiateRow (σ : CapEngine) (row : CapRow) (map : VarMap CapVarId) : CapRow :=
  let resolved := σ.resolveCapRowKeepingSlots row
  .resolved resolved.concreteBits (resolved.varIds.image fun v => (map.lookup v).getD v)

/-! ### Binding -/

/-- A row that is bound to a variable never mentions the variable. A row that was nothing but the
variable says nothing. -/
def stripSelf (id : CapVarId) : CapRow → Option CapRow
  | .unknown => some .unknown
  | .resolved concrete vars =>
    if id ∈ vars then
      if concrete = ∅ ∧ vars.erase id = ∅ then none else some (.resolved concrete (vars.erase id))
    else some (.resolved concrete vars)

/-- What a variable holds after a row was added, unless it covered the row already. -/
def merge : Option CapRow → CapRow → Option CapRow
  | some existing, row => if existing ⊔ row = existing then none else some (existing ⊔ row)
  | none, row => some row

def isFrozen (σ : CapEngine) (v : CapVarId) : Bool :=
  v ∈ σ.frozenCapVars || σ.effectScope.any fun scope => v ∈ scope.poly

def touch (σ : CapEngine) (id : CapVarId) : CapEngine :=
  if id ∈ σ.globalSlotCapVars then
    { σ with effectScope := σ.effectScope.map fun s => { s with touched := s.touched ++ [id] } }
  else σ

def recordParamStore (σ : CapEngine) (storage : CapVarId) (row : CapRow) : CapEngine :=
  { σ with
    effectScope := σ.effectScope.map fun s =>
      if (storage, row) ∈ s.paramStores then s
      else { s with paramStores := s.paramStores ++ [(storage, row)] } }

/-- The storage that the variable `target` stands for. -/
def targetSlots (σ : CapEngine) (target : CapVarId) : List CapVarId :=
  ascending ((σ.reachable ∅ {target}).filter fun v => v ≠ target ∧ v ∈ σ.slotCapVars)

/-- One slot of a store: storage that the body being checked was handed itself is recorded for its
callers, every other slot is bound. -/
def storeSlot (bind : CapVarId → CapRow → CapEngine → CapEngine) (row : CapRow) (σ : CapEngine)
    (slot : CapVarId) : CapEngine :=
  if slot ∈ σ.inputStorageCapVars ∧ σ.isFrozen slot then σ.recordParamStore slot row
  else bind slot row σ

/-- Widen all the storage that `target` stands for. -/
def storeVia (bind : CapVarId → CapRow → CapEngine → CapEngine) (target : CapVarId)
    (σ : CapEngine) (row : CapRow) : CapEngine :=
  (σ.targetSlots target).foldl (storeSlot bind row) σ

/-- The substitution after a binding that changed something, and the stores that waited for the
variable taken out. -/
def insertBinding (σ : CapEngine) (id : CapVarId) (merged : CapRow) : CapEngine :=
  { σ with
    capSubstitutions := σ.capSubstitutions.insert id merged
    capEpoch := σ.capEpoch + 1
    deferredInputStores := σ.deferredInputStores.erase id }

def deferredOf (σ : CapEngine) (id : CapVarId) : List CapRow :=
  (σ.deferredInputStores.lookup id).getD []

def lambdaStoresOf (σ : CapEngine) (id : CapVarId) : List CapRow :=
  (σ.lambdaInputStores.lookup id).getD []

/-- `bindCapVar` with a bound on the depth of the recursion. -/
def bindFrom : ℕ → CapVarId → CapRow → CapEngine → CapEngine
  | 0, _, _, σ => σ
  | n + 1, id, row, σ =>
    match stripSelf id row with
    | none => σ.touch id
    | some row =>
      match merge (σ.binding id) row with
      | none => σ.touch id
      | some merged =>
        let flushed := (σ.deferredOf id).foldl (storeVia (bindFrom n) id)
          ((σ.touch id).insertBinding id merged)
        (σ.lambdaStoresOf id).foldl (storeVia (bindFrom n) id) flushed

/-- Every row that a binding of `row` can carry on. -/
def rowsInPlay (σ : CapEngine) (row : CapRow) : List CapRow :=
  row :: (σ.deferredInputStores.entries.flatMap (·.2) ++
    σ.lambdaInputStores.entries.flatMap (·.2))

/-- Each level of the recursion binds a row in play to a variable that did not cover it. -/
def bindFuel (σ : CapEngine) (id : CapVarId) (row : CapRow) : ℕ :=
  (insert id σ.slotCapVars).card * (σ.rowsInPlay row).length + 1

def bindCapVar (σ : CapEngine) (id : CapVarId) (row : CapRow) : CapEngine :=
  bindFrom (σ.bindFuel id row) id row σ

def storeIntoInput (σ : CapEngine) (target : CapVarId) (row : CapRow) : CapEngine :=
  storeVia (fun id row σ => σ.bindCapVar id row) target σ row

end CapEngine

end Kryos.Types

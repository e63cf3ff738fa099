import Mathlib.Data.List.Sort
import Kryos.Lib.Worklist
import Kryos.Types.CapRounds

/-!
# The verdict on the `deny!` blocks

A `deny!` block whose row is still open is filed as an obligation of the declaration that holds it,
and every reference to a declaration that copied row variables is filed too. When the module has
been checked, `settleDenies` judges each obligation, and passes an obligation that depends on an
unbound variable on to each reference to its owner, with the row that the reference sees.

The loop is the worklist of `Kryos.Lib.Worklist`, keyed by the span, the owner and the resolved
row. It always ends: the rows it meets are over the finitely many variables of the state.
-/

namespace Kryos.Types.CapEngine

open Kryos.Ast Kryos.Capabilities

variable {σ : CapEngine} {V : Finset CapVarId}

/-! ### What is recorded while the module is checked -/

def freshCapVar (σ : CapEngine) : CapVarId × CapEngine :=
  (σ.nextCapVar, { σ with nextCapVar := σ.nextCapVar + 1 })

/-- The variable stands for storage, shared by the whole program if `global`. -/
def markSlot (σ : CapEngine) (v : CapVarId) (global : Bool) : CapEngine :=
  { σ with
    slotCapVars := insert v σ.slotCapVars
    globalSlotCapVars := if global then insert v σ.globalSlotCapVars else σ.globalSlotCapVars }

/-- The variable stands for the storage of a container that a body is handed. -/
def markInputStorage (σ : CapEngine) (v : CapVarId) : CapEngine :=
  { σ with
    slotCapVars := insert v σ.slotCapVars
    inputStorageCapVars := insert v σ.inputStorageCapVars }

def beginStoreEffects (σ : CapEngine) (poly : Finset CapVarId) : CapEngine :=
  { σ with effectScope := some { poly, touched := [], paramStores := [], owner := none } }

def setEffectOwner (σ : CapEngine) (own : CapVarId) : CapEngine :=
  match σ.effectScope with
  | none => σ
  | some scope =>
    { σ with
      effectScope := some { scope with owner := some own }
      ownerPoly := σ.ownerPoly.insert own scope.poly }

def markDispatchOwner (σ : CapEngine) (own : CapVarId) : CapEngine :=
  { σ with dispatchOwners := insert own σ.dispatchOwners }

def addNew {β : Type} [DecidableEq β] (l : List β) (b : β) : List β :=
  if b ∈ l then l else l ++ [b]

/-- What a body wrote into the storage of a container it was handed, as its callers can see it. -/
def inputEffect (σ : CapEngine) (scope : EffectScope) (store : CapVarId × CapRow) :
    Option (CapVarId × CapRow) :=
  let flat := σ.resolveCapRowKeepingSlots store.2
  let vars := flat.varIds.filter fun v =>
    v ≠ store.1 ∧ (v ∈ scope.poly ∨ v ∈ σ.globalSlotCapVars)
  if flat.concreteBits = ∅ ∧ vars = ∅ then none
  else some (store.1, .resolved flat.concreteBits vars)

/-- The parameters of a body that a global slot holds. -/
def slotEffect (σ : CapEngine) (scope : EffectScope) (slot : CapVarId) :
    Option (CapVarId × CapRow) :=
  match σ.binding slot with
  | none => none
  | some binding =>
    let vars := (σ.resolveCapRowKeepingSlots binding).varIds.filter (· ∈ scope.poly)
    if vars = ∅ then none else some (slot, .resolved ∅ vars)

def endStoreEffects (σ : CapEngine) (own : Option CapVarId) : CapEngine :=
  match σ.effectScope with
  | none => σ
  | some scope =>
    let σ := { σ with effectScope := none }
    match own with
    | none => σ
    | some own =>
      if scope.poly = ∅ ∨ (scope.touched = [] ∧ scope.paramStores = []) then σ
      else
        let found := (scope.paramStores.filterMap (σ.inputEffect scope)).foldl addNew [] ++
          (scope.touched.foldl addNew []).filterMap (σ.slotEffect scope)
        if found = [] then σ
        else
          { σ with
            storeEffects := σ.storeEffects.insert own
              (found.foldl addNew ((σ.storeEffects.lookup own).getD [])) }

/-- The declaration whose body is being checked. -/
def effectOwner (σ : CapEngine) : Option CapVarId := σ.effectScope.bind (·.owner)

/-- The copies of a reference, in the order of the variables. -/
def sortedCopies (map : VarMap CapVarId) : VarMap CapVarId :=
  ⟨map.entries.insertionSort fun e e' => e.1 ≤ e'.1,
    (List.perm_nodupKeys (List.perm_insertionSort _ _)).mpr map.nodupKeys⟩

/-- A reference to the declaration `own`: the row of the declaration as far as it is known, and the
row that the reference charges its caller. A reference that comes before the body of `own` charges
a variable of its own. -/
def referenceRow (σ : CapEngine) (own : CapVarId) (map : VarMap CapVarId) (span : Span) :
    (CapRow × CapRow) × CapEngine :=
  let σ := σ.replayStoreEffects own map
  let ownRow := σ.resolveCapRowKeepingSlots (.var own)
  let refCaps := σ.instantiateRow ownRow map
  let owner := σ.effectOwner
  if map.entries = [] then ((ownRow, refCaps), σ)
  else
    let file (refCaps : CapRow) (ownCopy : Option CapVarId) (σ : CapEngine) :=
      ((ownRow, refCaps), { σ with
        instantiations := σ.instantiations ++
          [{ owner, callee := own, map := sortedCopies map, span, ownCopy }] })
    if σ.isBound own = false ∧ owner ≠ some own then
      let (copy, σ) := σ.freshCapVar
      file (.var copy) (some copy) (σ.bindCapVar copy (.var own))
    else file refCaps none σ

/-- A block whose row is closed was judged at once. -/
def recordDenyObligation (σ : CapEngine) (denied : List String) (row : CapRow) (span : Span) :
    CapEngine :=
  if row.isClosed then σ
  else
    { σ with
      denyObligations := σ.denyObligations ++
        [{ denied, row, span, owner := σ.effectOwner, via := none }] }

/-- One call of the type checker on the engine. -/
inductive Op where
  | fresh
  | slot (v : CapVarId) (global : Bool)
  | inputStorage (v : CapVarId)
  | dispatchOwner (own : CapVarId)
  | bind (v : CapVarId) (row : CapRow)
  | beginEffects (poly : Finset CapVarId)
  | owner (own : CapVarId)
  | endEffects (own : Option CapVarId)
  | reference (own : CapVarId) (map : VarMap CapVarId) (span : Span)
  | deny (denied : List String) (row : CapRow) (span : Span)

def apply (σ : CapEngine) : Op → CapEngine
  | .fresh => σ.freshCapVar.2
  | .slot v global => σ.markSlot v global
  | .inputStorage v => σ.markInputStorage v
  | .dispatchOwner own => σ.markDispatchOwner own
  | .bind v row => σ.bindCapVar v row
  | .beginEffects poly => σ.beginStoreEffects poly
  | .owner own => σ.setEffectOwner own
  | .endEffects own => σ.endStoreEffects own
  | .reference own map span => (σ.referenceRow own map span).2
  | .deny denied row span => σ.recordDenyObligation denied row span

def run (ops : List Op) : CapEngine := ops.foldl apply new

/-! ### The verdict -/

/-- The variable is open, and a method of a trait impl was handed it. -/
def openParam (σ : CapEngine) (owner : Option CapVarId) (v : CapVarId) : Bool :=
  match owner with
  | none => false
  | some owner =>
    owner ∈ σ.dispatchOwners ∧ !σ.isBound v ∧ v ∈ (σ.ownerPoly.lookup owner).getD ∅

/-- The authority that an obligation is judged on. Nothing binds the parameter rows of a method that
is called through its trait, so a block that depends on one is judged on `all`. -/
def judgedBits (σ : CapEngine) (ob : DenyObligation) : CapBits :=
  let resolved := σ.resolveCapRow ob.row
  if ∃ v ∈ resolved.varIds, σ.openParam ob.owner v then {.all} else resolved.concreteBits

/-- The names reported so far with the spans they were reported for, and the violations. -/
structure Verdict where
  reported : List (Span × String)
  out : List DenyViolation
deriving DecidableEq

def Verdict.report (ob : DenyObligation) (acc : Verdict) (name : String) : Verdict :=
  if (ob.span, name) ∈ acc.reported then acc
  else
    { reported := (ob.span, name) :: acc.reported
      out := acc.out ++ [{ span := ob.span, denied := name, via := ob.via }] }

def judge (σ : CapEngine) (acc : Verdict) (ob : DenyObligation) : Verdict :=
  (deniedCapsUsed ob.denied (σ.judgedBits ob)).foldl (Verdict.report ob) acc

/-- What is processed only once. -/
def obligationKey (σ : CapEngine) (ob : DenyObligation) : Span × Option CapVarId × CapRow :=
  (ob.span, ob.owner, σ.resolveCapRow ob.row)

/-- The resolved row of an obligation still depends on a variable that nothing bound. -/
def dependsOnUnbound (σ : CapEngine) (row : CapRow) : Bool :=
  ∃ v ∈ (σ.resolveCapRow row).varIds, σ.isBound v = false

/-- An obligation, as one reference to its owner passes it on. -/
def passOn (σ : CapEngine) (ob : DenyObligation) (r : Instantiation) : DenyObligation :=
  { ob with row := σ.instantiateRow ob.row r.map, owner := r.owner, via := some r.span }

/-- What is pushed after an obligation was judged. The last reference is on top. -/
def passedOn (σ : CapEngine) (refs : List Instantiation) (ob : DenyObligation) :
    List DenyObligation :=
  if σ.dependsOnUnbound ob.row then
    ((refs.filter fun r => ob.owner = some r.callee).map (σ.passOn ob)).reverse
  else []

/-- Source order: by file, by start and by name. -/
def sourceOrder (a b : DenyViolation) : Bool :=
  a.span.fileId < b.span.fileId ∨ (a.span.fileId = b.span.fileId ∧
    (a.span.start < b.span.start ∨ (a.span.start = b.span.start ∧ a.denied ≤ b.denied)))

/-- What is left when the obligations and the references have been taken out. -/
def taken (σ : CapEngine) : CapEngine := { σ with denyObligations := [], instantiations := [] }

/-- The state that the obligations are judged in. -/
def completed (σ : CapEngine) : CapEngine := completeReferences σ.instantiations σ.taken

def settleLoop (fuel : ℕ) (σ : CapEngine) (refs : List Instantiation)
    (base : List DenyObligation) : Option Verdict :=
  Worklist.loop σ.obligationKey (σ.passedOn refs) σ.judge fuel base.reverse [] ⟨[], []⟩

def settleDenies (fuel : ℕ) (σ : CapEngine) : Option (List DenyViolation × CapEngine) :=
  if σ.denyObligations = [] then some ([], σ.taken)
  else
    match settleLoop fuel σ.completed σ.instantiations σ.denyObligations with
    | none => none
    | some verdict => some (verdict.out.mergeSort sourceOrder, σ.completed)

/-! ### The loop ends -/

theorem Over.collect (h : Over V σ) {keep start : Finset CapVarId} (hs : start ⊆ V) :
    (σ.collect keep (σ.reachable keep start)).varIds ⊆ V := by
  rw [CapEngine.collect]
  split
  · exact Finset.empty_subset _
  · exact (Finset.filter_subset _ _).trans (h.reachable hs)

theorem Over.resolveCapRow (h : Over V σ) {row : CapRow} (hrow : row.varIds ⊆ V) :
    (σ.resolveCapRow row).varIds ⊆ V := by
  cases row with
  | unknown => exact Finset.empty_subset _
  | resolved c vs =>
    refine varIds_sup_subset (Finset.empty_subset _) ?_
    refine Finset.sup_induction (p := fun r : CapRow => r.varIds ⊆ V) (Finset.empty_subset _)
      (fun _ hr _ hr' => varIds_sup_subset hr hr') fun v hv => ?_
    exact h.collect (Finset.singleton_subset_iff.mpr (hrow hv))

theorem Over.completeRounds {refs : List Instantiation} (hrefs : ∀ r ∈ refs, RefOver V r) (n : ℕ)
    (h : Over V σ) : Over V (completeRounds refs n σ) := by
  induction n generalizing σ with
  | zero => exact h
  | succ n ih =>
    have hround := (completeRound_settles hrefs h).within
    rw [CapEngine.completeRounds]
    split
    · exact hround
    · exact ih hround

/-- The variables of the state, of its references and of its obligations. -/
def settleVars (σ : CapEngine) : Finset CapVarId :=
  stateVars σ ∪ (varsOf refVars σ.instantiations ∪
    varsOf (fun ob => ob.row.varIds) σ.denyObligations)

/-- The keys that the loop can meet. -/
def settleKeys (σ : CapEngine) : Finset (Span × Option CapVarId × CapRow) :=
  (σ.denyObligations.map (·.span)).toFinset ×ˢ
    ((σ.denyObligations.map (·.owner)).toFinset ∪ (σ.instantiations.map (·.owner)).toFinset) ×ˢ
      rowsOver σ.settleVars

theorem settleLoop_isSome (σ : CapEngine) :
    ∃ fuel verdict, ∀ n ≥ fuel,
      settleLoop n σ.completed σ.instantiations σ.denyObligations = some verdict := by
  have hrefs : ∀ r ∈ σ.instantiations, RefOver σ.settleVars r := fun r hr =>
    refOver_refVars (((subset_varsOf hr).trans Finset.subset_union_left).trans
      Finset.subset_union_right)
  have hover : Over σ.settleVars σ.completed := by
    have htaken : Over σ.settleVars σ.taken := over_stateVars (σ := σ.taken)
      (Finset.subset_union_left : stateVars σ ⊆ σ.settleVars)
    exact htaken.completeRounds hrefs 16
  -- What is on the stack has its row over the variables of the state and its owner among those
  -- that the state names.
  let P (ob : DenyObligation) : Prop := ob.row.varIds ⊆ σ.settleVars ∧
    ob.span ∈ (σ.denyObligations.map (·.span)).toFinset ∧
    ob.owner ∈ (σ.denyObligations.map (·.owner)).toFinset ∪
      (σ.instantiations.map (·.owner)).toFinset
  have hkey : ∀ ob, P ob → σ.completed.obligationKey ob ∈ σ.settleKeys := by
    rintro ob ⟨hrow, hspan, howner⟩
    exact Finset.mk_mem_product hspan
      (Finset.mk_mem_product howner (mem_rowsOver (hover.resolveCapRow hrow)))
  have hwidth : ∀ ob, P ob →
      (σ.completed.passedOn σ.instantiations ob).length ≤ σ.instantiations.length := by
    intro ob _
    rw [passedOn]
    split
    · rw [List.length_reverse, List.length_map]
      exact List.length_filter_le _ _
    · exact Nat.zero_le _
  have hnext : ∀ ob, P ob → ∀ ob' ∈ σ.completed.passedOn σ.instantiations ob, P ob' := by
    rintro ob ⟨hrow, hspan, -⟩ ob' hob'
    rw [passedOn] at hob'
    split at hob'
    · obtain ⟨r, hr, rfl⟩ := List.mem_map.mp (List.mem_reverse.mp hob')
      have hr := (List.mem_filter.mp hr).1
      refine ⟨hover.instantiateRow hrow fun v c hl => ((hrefs r hr).map v c hl).2, hspan, ?_⟩
      exact Finset.mem_union_right _ (List.mem_toFinset.mpr (List.mem_map_of_mem hr))
    · cases hob'
  have hwork : ∀ ob ∈ σ.denyObligations.reverse, P ob := by
    intro ob hob
    have hob := List.mem_reverse.mp hob
    refine ⟨?_, List.mem_toFinset.mpr (List.mem_map_of_mem hob),
      Finset.mem_union_left _ (List.mem_toFinset.mpr (List.mem_map_of_mem hob))⟩
    exact ((subset_varsOf (f := fun ob => ob.row.varIds) hob).trans
      Finset.subset_union_right).trans Finset.subset_union_right
  let fuel := σ.settleKeys.card * (σ.instantiations.length + 1) + σ.denyObligations.reverse.length
  obtain ⟨verdict, hv⟩ : ∃ verdict,
      settleLoop fuel σ.completed σ.instantiations σ.denyObligations = some verdict := by
    refine Worklist.loop_isSome hkey hwidth hnext hwork (Nat.add_le_add_right ?_ _)
    exact Nat.mul_le_mul_right _ (Finset.card_filter_le _ _)
  exact ⟨fuel, verdict, fun n hn => Worklist.loop_mono hn hv⟩

/-- Judging the obligations of a state ends, with the result `out`. -/
def SettlesTo (σ : CapEngine) (out : List DenyViolation) : Prop :=
  ∃ fuel, ∀ n ≥ fuel, settleDenies n σ = some (out, if σ.denyObligations = [] then σ.taken
    else σ.completed)

theorem exists_settlesTo (σ : CapEngine) : ∃ out, SettlesTo σ out := by
  by_cases hbase : σ.denyObligations = []
  · refine ⟨[], 0, fun n _ => ?_⟩
    rw [settleDenies, if_pos hbase, if_pos hbase]
  · obtain ⟨fuel, verdict, hv⟩ := settleLoop_isSome σ
    refine ⟨verdict.out.mergeSort sourceOrder, fuel, fun n hn => ?_⟩
    rw [settleDenies, if_neg hbase, if_neg hbase, hv n hn]

end Kryos.Types.CapEngine

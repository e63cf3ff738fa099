import Mathlib.Logic.Function.Iterate
import Kryos.Types.CapBind

/-!
# Completing the references

A reference that was typed before the body of its callee found nothing to replay. When every body
has been checked, `completeReferences` replays the stores of each callee and binds the copies of
its variables. A binding can enable the binding of another reference, so the pass repeats its
round over the references, until the epoch stands still but at most sixteen times.

A round that leaves the epoch alone leaves every later round idle (`Inert`): what a round binds
depends on the substitution and on sets that no round changes. So the pass ends in a fixed point
exactly if the rounds, iterated without a limit, come to a stop within sixteen of them.
-/

namespace Kryos.Types.CapEngine

variable {σ τ : CapEngine}

/-- One store of a callee, as one reference to it sees it. A store into a container that the
callee was handed waits until the argument is known. -/
def replayEffect (map : VarMap CapVarId) (σ : CapEngine) (effect : CapVarId × CapRow) : CapEngine :=
  let inst := σ.instantiateRow effect.2 map
  if effect.1 ∈ σ.inputStorageCapVars then
    match map.lookup effect.1 with
    | none => σ
    | some target =>
      if σ.isBound target then σ.storeIntoInput target inst
      else
        { σ with
          deferredInputStores :=
            σ.deferredInputStores.insert target (σ.deferredOf target ++ [inst]) }
  else σ.bindCapVar effect.1 inst

def replayStoreEffects (σ : CapEngine) (own : CapVarId) (map : VarMap CapVarId) : CapEngine :=
  ((σ.storeEffects.lookup own).getD []).foldl (replayEffect map) σ

/-- Bind the copy of a variable of the callee, if the variable is bound. -/
def completeCopy (map : VarMap CapVarId) (σ : CapEngine) (var copy : CapVarId) : CapEngine :=
  if σ.isBound var then σ.bindCapVar copy (σ.instantiateRow (.var var) map) else σ

def completeCopies (map : VarMap CapVarId) (σ : CapEngine) : CapEngine :=
  map.entries.foldl (fun σ entry => completeCopy map σ entry.1 entry.2) σ

def completeOwnCopy (r : Instantiation) (σ : CapEngine) : CapEngine :=
  match r.ownCopy with
  | none => σ
  | some copy => completeCopy r.map σ r.callee copy

def completeReference (σ : CapEngine) (r : Instantiation) : CapEngine :=
  completeOwnCopy r (completeCopies r.map (σ.replayStoreEffects r.callee r.map))

def completeRound (refs : List Instantiation) (σ : CapEngine) : CapEngine :=
  refs.foldl completeReference σ

/-- At most `n` rounds, until one leaves the epoch alone. -/
def completeRounds (refs : List Instantiation) : ℕ → CapEngine → CapEngine
  | 0, σ => σ
  | n + 1, σ =>
    let σ' := completeRound refs σ
    if σ'.capEpoch = σ.capEpoch then σ' else completeRounds refs n σ'

def completeReferences (refs : List Instantiation) (σ : CapEngine) : CapEngine :=
  completeRounds refs 16 σ

/-! ### Rounds widen -/

theorem replayEffect_widens (map : VarMap CapVarId) (σ : CapEngine)
    (effect : CapVarId × CapRow) : Widens σ (replayEffect map σ effect) := by
  rw [replayEffect]
  split
  · split
    · exact Widens.refl σ
    · split
      · exact (storeIntoInput_grows σ _ _).toWidens
      · exact .of_eq rfl rfl rfl (fun _ => rfl) rfl rfl rfl rfl
  · exact (bindCapVar_grows σ _ _).toWidens

theorem replayStoreEffects_widens (σ : CapEngine) (own : CapVarId) (map : VarMap CapVarId) :
    Widens σ (σ.replayStoreEffects own map) :=
  Widens.foldl (replayEffect_widens map) _ σ

theorem completeCopy_widens (map : VarMap CapVarId) (σ : CapEngine) (var copy : CapVarId) :
    Widens σ (completeCopy map σ var copy) := by
  rw [completeCopy]
  split
  · exact (bindCapVar_grows σ _ _).toWidens
  · exact Widens.refl σ

theorem completeCopies_widens (map : VarMap CapVarId) (σ : CapEngine) :
    Widens σ (completeCopies map σ) :=
  Widens.foldl (fun σ _ => completeCopy_widens map σ _ _) _ σ

theorem completeOwnCopy_widens (r : Instantiation) (σ : CapEngine) :
    Widens σ (completeOwnCopy r σ) := by
  rw [completeOwnCopy]
  split
  · exact Widens.refl σ
  · exact completeCopy_widens _ σ _ _

theorem completeReference_widens (σ : CapEngine) (r : Instantiation) :
    Widens σ (completeReference σ r) :=
  (replayStoreEffects_widens σ _ _).trans
    ((completeCopies_widens _ _).trans (completeOwnCopy_widens r _))

theorem completeRound_widens (refs : List Instantiation) (σ : CapEngine) :
    Widens σ (completeRound refs σ) :=
  Widens.foldl completeReference_widens refs σ

/-! ### An idle round stays idle -/

/-- The two states agree on everything that decides what a round binds. -/
structure Alike (σ τ : CapEngine) : Prop where
  substitutions : τ.capSubstitutions = σ.capSubstitutions
  slots : τ.slotCapVars = σ.slotCapVars
  globals : τ.globalSlotCapVars = σ.globalSlotCapVars
  inputs : τ.inputStorageCapVars = σ.inputStorageCapVars
  frozen : ∀ v, τ.isFrozen v = σ.isFrozen v
  effects : τ.storeEffects = σ.storeEffects

theorem Alike.symm (h : Alike σ τ) : Alike τ σ :=
  ⟨h.substitutions.symm, h.slots.symm, h.globals.symm, h.inputs.symm, fun v => (h.frozen v).symm,
    h.effects.symm⟩

theorem Alike.trans {σ₁ σ₂ σ₃ : CapEngine} (h : Alike σ₁ σ₂) (h' : Alike σ₂ σ₃) : Alike σ₁ σ₃ :=
  ⟨h'.substitutions.trans h.substitutions, h'.slots.trans h.slots, h'.globals.trans h.globals,
    h'.inputs.trans h.inputs, fun v => (h'.frozen v).trans (h.frozen v),
    h'.effects.trans h.effects⟩

/-- A step that left the epoch alone. -/
theorem Widens.alike (h : Widens σ τ) (he : τ.capEpoch = σ.capEpoch) : Alike σ τ :=
  ⟨h.same he, h.slots, h.globals, h.inputs, h.frozen, h.effects⟩

section

variable (h : Alike σ τ)

include h

theorem Alike.binding (v : CapVarId) : τ.binding v = σ.binding v := by
  rw [CapEngine.binding, h.substitutions, CapEngine.binding]

theorem Alike.isBound (v : CapVarId) : τ.isBound v = σ.isBound v := by
  rw [CapEngine.isBound, h.binding, CapEngine.isBound]

theorem Alike.succs : τ.succs = σ.succs := by
  funext v
  rw [CapEngine.succs, h.binding, CapEngine.succs]

theorem Alike.reachable (stop start : Finset CapVarId) :
    τ.reachable stop start = σ.reachable stop start := by
  rw [CapEngine.reachable, h.succs, h.substitutions, CapEngine.reachable]

theorem Alike.collect (keep visited : Finset CapVarId) :
    τ.collect keep visited = σ.collect keep visited := by
  have hb : τ.binding = σ.binding := funext h.binding
  have hi : τ.isBound = σ.isBound := funext h.isBound
  have hc : τ.onCycle = σ.onCycle := by
    funext v
    rw [onCycle, h.succs, h.reachable, onCycle]
  rw [CapEngine.collect, CapEngine.collect, hb, hi, hc]

theorem Alike.instantiateRow (row : CapRow) (map : VarMap CapVarId) :
    τ.instantiateRow row map = σ.instantiateRow row map := by
  have hr : τ.resolveCapRowKeepingSlots row = σ.resolveCapRowKeepingSlots row := by
    cases row with
    | unknown => rfl
    | resolved concrete vars =>
      rw [resolveCapRowKeepingSlots, resolveCapRowKeepingSlots, h.globals, h.reachable, h.collect]
  rw [CapEngine.instantiateRow, hr, CapEngine.instantiateRow]

theorem Alike.targetSlots (target : CapVarId) : τ.targetSlots target = σ.targetSlots target := by
  rw [CapEngine.targetSlots, h.reachable, h.slots, CapEngine.targetSlots]

end

/-- A step that changed nothing in one state changes nothing in any state like it. -/
def Inert (f : CapEngine → CapEngine) : Prop :=
  ∀ ⦃σ τ⦄, Alike σ τ → (f σ).capEpoch = σ.capEpoch → (f τ).capEpoch = τ.capEpoch

theorem Inert.comp {f g : CapEngine → CapEngine} (hf : Inert f) (hg : Inert g)
    (wf : ∀ σ, Widens σ (f σ)) (wg : ∀ σ, Widens σ (g σ)) : Inert fun σ => g (f σ) := by
  intro σ τ h he
  have he : (g (f σ)).capEpoch = σ.capEpoch := he
  have h₁ := (wf σ).epoch
  have h₂ := (wg (f σ)).epoch
  have hidle : (f σ).capEpoch = σ.capEpoch := by omega
  have hidle' : (f τ).capEpoch = τ.capEpoch := hf h hidle
  have halike : Alike (f σ) (f τ) :=
    ((wf σ).alike hidle).symm.trans (h.trans ((wf τ).alike hidle'))
  have hlast : (g (f τ)).capEpoch = (f τ).capEpoch := hg halike (by omega)
  exact hlast.trans hidle'

theorem Inert.foldl {β : Type} {f : CapEngine → β → CapEngine} (hf : ∀ b, Inert fun σ => f σ b)
    (wf : ∀ σ b, Widens σ (f σ b)) (l : List β) : Inert fun σ => l.foldl f σ := by
  induction l with
  | nil => exact fun _ _ _ _ => rfl
  | cons b l ih => exact (hf b).comp ih (wf · b) (Widens.foldl wf l)

/-- A binding leaves the epoch alone exactly if the row was covered. -/
theorem bindCapVar_epoch_iff (σ : CapEngine) (id : CapVarId) (row : CapRow) :
    (σ.bindCapVar id row).capEpoch = σ.capEpoch ↔ Covered σ id row := by
  rw [bindCapVar_eq]
  cases hr : stripSelf id row with
  | none =>
    refine iff_of_true (touch_capEpoch σ id) fun r h => ?_
    rw [hr] at h
    cases h
  | some r =>
    cases hmerge : merge (σ.binding id) r with
    | none =>
      simp only [hmerge]
      refine iff_of_true (touch_capEpoch σ id) fun r' h => ?_
      obtain rfl : r = r' := Option.some.inj (hr.symm.trans h)
      exact hmerge
    | some merged =>
      simp only [hmerge]
      refine iff_of_false ?_ fun hc => ?_
      · have hstore : ∀ (l : List CapRow) (τ : CapEngine),
            τ.capEpoch ≤ (l.foldl (fun τ r => τ.storeIntoInput id r) τ).capEpoch := fun l τ =>
          (Widens.foldl (f := fun τ r => τ.storeIntoInput id r)
            (fun τ r => (storeIntoInput_grows τ id r).toWidens) l τ).epoch
        have h₀ : ((σ.touch id).insertBinding id merged).capEpoch = σ.capEpoch + 1 := by
          rw [insertBinding, touch_capEpoch]
        have h₁ := hstore (σ.deferredOf id) ((σ.touch id).insertBinding id merged)
        have h₂ := hstore (σ.lambdaStoresOf id) ((σ.deferredOf id).foldl
          (fun τ r => τ.storeIntoInput id r) ((σ.touch id).insertBinding id merged))
        omega
      · rw [hc r hr] at hmerge
        cases hmerge

theorem bindCapVar_inert {id : CapVarId} {row : CapEngine → CapRow}
    (hrow : ∀ σ τ, Alike σ τ → row τ = row σ) : Inert fun σ => σ.bindCapVar id (row σ) := by
  intro σ τ h he
  rw [bindCapVar_epoch_iff] at he ⊢
  intro r hr
  rw [hrow σ τ h] at hr
  rw [h.binding]
  exact he r hr

theorem storeIntoInput_inert (target : CapVarId) {row : CapEngine → CapRow}
    (hrow : ∀ σ τ, Alike σ τ → row τ = row σ) :
    Inert fun σ => σ.storeIntoInput target (row σ) := by
  intro σ τ h he
  simp only [storeIntoInput, storeVia] at he ⊢
  rw [h.targetSlots, hrow σ τ h]
  refine Inert.foldl (fun slot => ?_) (fun ρ slot => ?_) (σ.targetSlots target) h he
  · intro ρ ρ' hρ hidle
    simp only [storeSlot] at hidle ⊢
    rw [hρ.inputs, hρ.frozen]
    split at hidle
    · rename_i hcond
      rw [if_pos hcond, recordParamStore]
    · rename_i hcond
      rw [if_neg hcond]
      exact @bindCapVar_inert slot (fun _ => row σ) (fun _ _ _ => rfl) ρ ρ' hρ hidle
  · rw [storeSlot]
    split
    · exact (recordParamStore_grows ρ slot _).toWidens
    · exact (bindCapVar_grows ρ slot _).toWidens

theorem replayEffect_inert (map : VarMap CapVarId) (effect : CapVarId × CapRow) :
    Inert fun σ => replayEffect map σ effect := by
  intro σ τ h he
  simp only [replayEffect] at he ⊢
  rw [h.inputs]
  have hrow : ∀ σ τ, Alike σ τ → τ.instantiateRow effect.2 map = σ.instantiateRow effect.2 map :=
    fun _ _ h => h.instantiateRow effect.2 map
  split at he
  · rename_i hin
    rw [if_pos hin]
    cases hl : map.lookup effect.1 with
    | none => rfl
    | some target =>
      simp only [hl] at he ⊢
      rw [h.isBound]
      split at he
      · rename_i hb
        rw [if_pos hb]
        exact storeIntoInput_inert target hrow h he
      · rename_i hb
        rw [if_neg hb]
  · rename_i hin
    rw [if_neg hin]
    exact bindCapVar_inert hrow h he

theorem replayStoreEffects_inert (own : CapVarId) (map : VarMap CapVarId) :
    Inert fun σ => σ.replayStoreEffects own map := by
  intro σ τ h he
  simp only [replayStoreEffects] at he ⊢
  rw [h.effects]
  exact Inert.foldl (replayEffect_inert map) (replayEffect_widens map) _ h he

theorem completeCopy_inert (map : VarMap CapVarId) (var copy : CapVarId) :
    Inert fun σ => completeCopy map σ var copy := by
  intro σ τ h he
  simp only [completeCopy] at he ⊢
  rw [h.isBound]
  split at he
  · rename_i hb
    rw [if_pos hb]
    exact bindCapVar_inert (fun _ _ h => h.instantiateRow _ map) h he
  · rename_i hb
    rw [if_neg hb]

theorem completeReference_inert (r : Instantiation) : Inert fun σ => completeReference σ r := by
  have hown : Inert (completeOwnCopy r) := by
    intro σ τ h he
    rw [completeOwnCopy] at he ⊢
    split at he
    · rfl
    · exact completeCopy_inert r.map r.callee _ h he
  have hcopies : Inert (completeCopies r.map) :=
    Inert.foldl (f := fun σ (entry : (_ : CapVarId) × CapVarId) =>
        completeCopy r.map σ entry.1 entry.2)
      (fun entry => completeCopy_inert r.map entry.1 entry.2)
      (fun σ entry => completeCopy_widens r.map σ entry.1 entry.2) r.map.entries
  exact (replayStoreEffects_inert r.callee r.map).comp
    (hcopies.comp hown (completeCopies_widens r.map) (completeOwnCopy_widens r))
    (fun σ => replayStoreEffects_widens σ _ _)
    fun σ => (completeCopies_widens _ σ).trans (completeOwnCopy_widens r _)

theorem completeRound_inert (refs : List Instantiation) : Inert (completeRound refs) :=
  Inert.foldl completeReference_inert completeReference_widens refs

end Kryos.Types.CapEngine

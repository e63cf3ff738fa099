import Kryos.Types.CapExpand
import Kryos.Types.Unify

/-!
# Authority only widens

Every operation of the engine goes to the substitution of the row variables through `bindCapVar`,
which joins what is new to what was there. So a variable stays bound, to a row that covers the one
before (`BindsMore`), and what a variable resolves to never loses a capability.
-/

namespace Kryos.Types

open Relation CapRow

/-- The authority of a row. An unknown row counts as every capability. -/
def CapRow.authority : CapRow → CapBits
  | .resolved concrete _ => concrete
  | .unknown => Finset.univ

namespace CapEngine

variable {σ σ' : CapEngine}

/-- What `σ` has bound, `σ'` has bound to at least as much. -/
def BindsMore (σ σ' : CapEngine) : Prop :=
  ∀ v r, σ.binding v = some r → ∃ r', σ'.binding v = some r' ∧ r ≤ r'

theorem BindsMore.refl (σ : CapEngine) : BindsMore σ σ := fun _ r h => ⟨r, h, le_rfl⟩

theorem BindsMore.trans {σ₁ σ₂ σ₃ : CapEngine} (h : BindsMore σ₁ σ₂) (h' : BindsMore σ₂ σ₃) :
    BindsMore σ₁ σ₃ := by
  intro v r hr
  obtain ⟨r₂, hr₂, hle⟩ := h v r hr
  obtain ⟨r₃, hr₃, hle'⟩ := h' v r₂ hr₂
  exact ⟨r₃, hr₃, hle.trans hle'⟩

theorem BindsMore.of_substitutions_eq (h : σ'.capSubstitutions = σ.capSubstitutions) :
    BindsMore σ σ' := by
  intro v r hr
  refine ⟨r, ?_, le_rfl⟩
  rwa [binding, h]

theorem Widens.bindsMore (h : Widens σ σ') : BindsMore σ σ' := h.widen

theorem BindsMore.foldl {β γ : Type} {state : β → CapEngine} {f : β → γ → β}
    (hf : ∀ b c, BindsMore (state b) (state (f b c))) (l : List γ) (b : β) :
    BindsMore (state b) (state (l.foldl f b)) := by
  induction l generalizing b with
  | nil => exact BindsMore.refl _
  | cons c l ih => exact (hf b c).trans (ih (f b c))

theorem bindsMore_bindCapVar (σ : CapEngine) (v : CapVarId) (row : CapRow) :
    BindsMore σ (σ.bindCapVar v row) :=
  (bindCapVar_grows σ v row).toWidens.bindsMore

theorem bindsMore_referenceRow (σ : CapEngine) (own : CapVarId) (map : VarMap CapVarId)
    (span : Ast.Span) : BindsMore σ (σ.referenceRow own map span).2 := by
  have hreplay := (replayStoreEffects_widens σ own map).bindsMore
  have hcopy : ∀ (σ : CapEngine) v row inst,
      BindsMore σ { σ.freshCapVar.2.bindCapVar v row with instantiations := inst } := by
    intro σ v row inst
    have hfresh : BindsMore σ σ.freshCapVar.2 := .of_substitutions_eq rfl
    exact hfresh.trans ((bindsMore_bindCapVar _ v row).trans (.of_substitutions_eq rfl))
  rw [referenceRow]
  dsimp only
  split
  · exact hreplay
  · split
    · exact hreplay.trans (hcopy _ _ _ _)
    · exact hreplay.trans (.of_substitutions_eq rfl)

/-! ### What a variable resolves to -/

theorem ownRow_mono (h : BindsMore σ σ') (u : CapVarId) : σ.ownRow u ≤ σ'.ownRow u := by
  cases hb : σ.binding u with
  | none =>
    rw [ownRow, hb]
    exact bot_le
  | some r =>
    obtain ⟨r', hb', hle⟩ := h u r hb
    rw [ownRow, ownRow, hb, hb']
    cases r with
    | unknown =>
      obtain rfl := unknown_le_iff.mp hle
      exact le_rfl
    | resolved c vs =>
      cases r' with
      | unknown => exact le_unknown _
      | resolved c' vs' =>
        exact resolved_le_resolved.mpr ⟨(resolved_le_resolved.mp hle).1, Finset.Subset.refl _⟩

/-- What a variable reached it still reaches, unless an unknown row came in between. -/
theorem reaches_mono (h : BindsMore σ σ') {v u : CapVarId} (hvu : ReflTransGen σ.Edge v u) :
    ReflTransGen σ'.Edge v u ∨ ∃ w, ReflTransGen σ'.Edge v w ∧ σ'.ownRow w = .unknown := by
  induction hvu with
  | refl => exact .inl .refl
  | tail _ hstep ih =>
    rename_i w u _
    rcases ih with hreach | hunknown
    · rw [Edge, succs] at hstep
      cases hb : σ.binding w with
      | none =>
        rw [hb] at hstep
        cases hstep
      | some r =>
        rw [hb] at hstep
        obtain ⟨r', hb', hle⟩ := h w r hb
        cases r' with
        | unknown => exact .inr ⟨w, hreach, ownRow_eq_unknown_iff.mpr hb'⟩
        | resolved c' vs' =>
          cases r with
          | unknown => exact absurd hle not_unknown_le
          | resolved c vs =>
            refine .inl (hreach.tail ?_)
            rw [Edge, succs, hb']
            exact (resolved_le_resolved.mp hle).2 hstep
    · exact .inr hunknown

/-- A capability of a variable, or that it is unknown, comes from a variable that it reaches. -/
theorem row_le_resolve_iff {a : Atom} (ha : ∀ v, a ≠ .var v) (v : CapVarId) :
    a.row ≤ σ.resolveCapVar v ↔ ∃ u, ReflTransGen σ.Edge v u ∧ a.row ≤ σ.ownRow u := by
  rw [row_le_resolveCapVar]
  refine or_iff_left fun ⟨u, _, _, hle⟩ => ?_
  cases a with
  | var w => exact ha w rfl
  | cap c => exact Finset.notMem_empty c (cap_le_iff.mp hle)
  | unknown => exact not_unknown_le hle

theorem row_le_resolve_mono (h : BindsMore σ σ') {a : Atom} (ha : ∀ v, a ≠ .var v) {v : CapVarId}
    (hle : a.row ≤ σ.resolveCapVar v) : a.row ≤ σ'.resolveCapVar v := by
  rw [row_le_resolve_iff ha] at hle ⊢
  obtain ⟨u, hu, hle⟩ := hle
  rcases reaches_mono h hu with hu' | ⟨w, hw, hown⟩
  · exact ⟨u, hu', hle.trans (ownRow_mono h u)⟩
  · exact ⟨w, hw, hown ▸ le_unknown _⟩

theorem resolveCapRow_var (σ : CapEngine) (v : CapVarId) :
    σ.resolveCapRow (.var v) = σ.resolveCapVar v := by
  show CapRow.closed ∅ ⊔ ({v} : Finset CapVarId).sup σ.resolveCapVar = _
  rw [Finset.sup_singleton]
  exact bot_sup_eq _

/-- What `v` resolves to in `σ'` has all the authority that it had in `σ`. -/
def KeepsAuthority (σ σ' : CapEngine) (v : CapVarId) : Prop :=
  (σ.resolveCapRow (.var v)).authority ⊆ (σ'.resolveCapRow (.var v)).authority ∧
    (σ.resolveCapRow (.var v) = .unknown → σ'.resolveCapRow (.var v) = .unknown)

theorem BindsMore.keepsAuthority (h : BindsMore σ σ') (v : CapVarId) : KeepsAuthority σ σ' v := by
  have hunknown : σ.resolveCapVar v = .unknown → σ'.resolveCapVar v = .unknown := fun hv =>
    unknown_le_iff.mp (row_le_resolve_mono h (a := .unknown) (fun _ h => by cases h) (hv ▸ le_rfl))
  rw [KeepsAuthority, resolveCapRow_var, resolveCapRow_var]
  refine ⟨fun c hc => ?_, hunknown⟩
  cases hr : σ.resolveCapVar v with
  | unknown =>
    rw [hunknown hr]
    exact Finset.mem_univ c
  | resolved bits vs =>
    rw [hr] at hc
    have hle : (Atom.cap c).row ≤ σ'.resolveCapVar v :=
      row_le_resolve_mono h (fun _ h => by cases h) (hr ▸ cap_le_iff.mpr hc)
    cases hr' : σ'.resolveCapVar v with
    | unknown => exact Finset.mem_univ c
    | resolved bits' vs' =>
      rw [hr'] at hle
      exact cap_le_iff.mp hle

end CapEngine

namespace Engine

open CapEngine

variable {e e' : Engine}

/-! ### The operations of the whole engine -/

theorem bindsMore_recordLambdaStore (e : Engine) (storage : CapVarId) (row : CapRow) :
    BindsMore e.cap (e.recordLambdaStore storage row).cap := by
  have hrecord : BindsMore e.cap { e.cap with
      lambdaInputStores := e.cap.lambdaInputStores.insert storage
        (if row ∈ e.cap.lambdaStoresOf storage then e.cap.lambdaStoresOf storage
          else e.cap.lambdaStoresOf storage ++ [row]) } := .of_substitutions_eq rfl
  exact hrecord.trans (storeIntoInput_grows _ storage row).toWidens.bindsMore

theorem bindsMore_unifyDestination (source : CapRow) (e : Engine) (v : CapVarId) :
    BindsMore e.cap (e.unifyDestination source v).cap := by
  rw [unifyDestination]
  split
  · split
    · exact bindsMore_recordLambdaStore e v source
    · exact (recordParamStore_grows _ v source).toWidens.bindsMore
  · split
    · exact bindsMore_bindCapVar _ _ _
    · exact BindsMore.refl _

theorem bindsMore_unifySource (destination : CapRow) (e : Engine) (v : CapVarId) :
    BindsMore e.cap (e.unifySource destination v).cap := by
  rw [unifySource]
  split
  · exact bindsMore_bindCapVar _ _ _
  · exact BindsMore.refl _

theorem bindsMore_unifyRows (e : Engine) (c1 c2 : CapRow) :
    BindsMore e.cap (e.unifyRows c1 c2).cap := by
  have hdest : ∀ (l : List CapVarId) (e : Engine),
      BindsMore e.cap (l.foldl (unifyDestination c2) e).cap :=
    BindsMore.foldl (fun e v => bindsMore_unifyDestination c2 e v)
  rw [unifyRows]
  split
  · exact BindsMore.refl _
  · dsimp only
    split
    · exact (hdest _ e).trans (BindsMore.foldl (bindsMore_unifySource _) _ _)
    · exact hdest _ e

theorem bindsMore_slotRowFor (keep : Bool) (row : CapRow) (σ : CapEngine) :
    BindsMore σ (slotRowFor keep row σ).2 := by
  rw [slotRowFor.eq_def]
  split
  · exact BindsMore.refl _
  · split
    · exact BindsMore.refl _
    · have hfresh : BindsMore σ (freshSlotCapVar σ).2 := .of_substitutions_eq rfl
      exact hfresh.trans (bindsMore_bindCapVar _ _ _)

theorem bindsMore_mapParts {parts : List Ty} {f : (c : Ty) → c ∈ parts → CapEngine → Ty × CapEngine}
    (hf : ∀ c hc σ, BindsMore σ (f c hc σ).2) (σ : CapEngine) :
    BindsMore σ (mapParts parts f σ).2 := by
  induction parts generalizing σ with
  | nil => exact BindsMore.refl σ
  | cons c cs ih =>
    rw [mapParts]
    exact (hf c _ σ).trans (ih (fun d hd => hf d _) _)

theorem bindsMore_generalizeRows (keep : Bool) (t : Ty) (σ : CapEngine) :
    BindsMore σ (generalizeRows keep t σ).2 := by
  induction t using Ty.parts_induction generalizing σ with
  | _ t ih =>
    rw [generalizeRows.eq_def]
    split
    · exact BindsMore.refl σ
    · split
      · rename_i params ret caps _
        have hret := ih ret (List.mem_append_right _ (List.mem_singleton_self ret)) σ
        exact hret.trans (bindsMore_slotRowFor keep caps _)
      · exact bindsMore_mapParts (fun c hc => ih c hc) σ

theorem bindsMore_bindVar {id : TyVarId} {t : Ty} (h : e.bindVar id t = .done e') :
    BindsMore e.cap e'.cap := by
  obtain ⟨_, varBounds, rfl⟩ := bindVar_done h
  exact bindsMore_generalizeRows true t e.cap

theorem Step.bindsMore (h : Step e e') : BindsMore e.cap e'.cap := by
  cases h with
  | flag => exact BindsMore.refl _
  | rows c1 c2 => exact bindsMore_unifyRows e c1 c2
  | bind _ _ _ h => exact bindsMore_bindVar h

/-! ### Runs -/

/-- One call. A `unify` that fails keeps what it has done so far. Between the calls the checker may
change whatever is not a binding of a row variable: the scope, the frozen variables, the slots. -/
inductive Call : Engine → Engine → Prop
  | bindCapVar (e : Engine) (v : CapVarId) (row : CapRow) :
      Call e { e with cap := e.cap.bindCapVar v row }
  | unify {e e' : Engine} {n : Nat} {a b : Ty} (h : (unify n a b e).engine = some e') : Call e e'
  | replayStoreEffects (e : Engine) (own : CapVarId) (map : VarMap CapVarId) :
      Call e { e with cap := e.cap.replayStoreEffects own map }
  | referenceRow (e : Engine) (own : CapVarId) (map : VarMap CapVarId) (span : Ast.Span) :
      Call e { e with cap := (e.cap.referenceRow own map span).2 }
  | other {e e' : Engine} (h : e'.cap.capSubstitutions = e.cap.capSubstitutions) : Call e e'

theorem Call.bindsMore (h : Call e e') : BindsMore e.cap e'.cap := by
  cases h with
  | bindCapVar v row => exact bindsMore_bindCapVar e.cap v row
  | unify h =>
    have hsteps := unify_steps _ _ _ e e' h
    clear h
    induction hsteps with
    | refl => exact BindsMore.refl _
    | tail _ hstep ih => exact ih.trans hstep.bindsMore
  | replayStoreEffects own map => exact (replayStoreEffects_widens e.cap own map).bindsMore
  | referenceRow own map span => exact bindsMore_referenceRow e.cap own map span
  | other h => exact .of_substitutions_eq h

/-- Over any sequence of calls, no variable loses a capability, and one that resolves to an unknown
row does so for ever. -/
theorem calls_keepAuthority (h : ReflTransGen Call e e') (v : CapVarId) :
    KeepsAuthority e.cap e'.cap v := by
  refine BindsMore.keepsAuthority ?_ v
  induction h with
  | refl => exact BindsMore.refl _
  | tail _ hcall ih => exact ih.trans hcall.bindsMore

/-- A callback that only uses `io` goes where one that uses the network is expected. -/
theorem handler_keepsAuthority :
    ∃ e', (unify 2 (.function [] (.prim .void) (.var 0)) (.function [] (.prim .void) (.closed {.io}))
        { Engine.new with cap := CapEngine.new.bindCapVar 0 (.closed {.net}) }).engine = some e' ∧
      KeepsAuthority (CapEngine.new.bindCapVar 0 (.closed {.net})) e'.cap 0 := by
  have hdone : (unify 2 (.function [] (.prim .void) (.var 0))
      (.function [] (.prim .void) (.closed {.io}))
      { Engine.new with cap := CapEngine.new.bindCapVar 0 (.closed {.net}) }).engine.isSome := by
    decide
  obtain ⟨e', he'⟩ := Option.isSome_iff_exists.mp hdone
  exact ⟨e', he', calls_keepAuthority (.single (.unify he')) 0⟩

end Engine

end Kryos.Types

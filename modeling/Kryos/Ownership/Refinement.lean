import Kryos.Lib.AssignmentSound
import Kryos.Ownership.Paths

/-!
# What the analysis knows of initialisation

What the analysis knows of a local, as far as it matters here, is whether it is `Uninitialized`
(`view`). `Refines` says that a part of the walk does to the view what the checker for definite
assignment does along the paths of the same code, unless it reports E0301.
-/

namespace Kryos.Ownership

open Kryos.Ast DefiniteAssignment

def VarInfo.assigned (info : VarInfo) : Bool := info.state ≠ .uninitialized

/-- E0301. -/
def Diagnostic.isUninitialized : Diagnostic → Bool
  | .useUninitialized .. => true
  | _ => false

namespace Analyzer

def scopeView (scope : OwnershipScope) : Unit × Layer String :=
  ((), fun name => (scope.lookup name).map VarInfo.assigned)

def view (σ : Analyzer) : Stack Unit String := σ.scopes.map scopeView

/-- E0301 has not been reported. -/
def Quiet (σ : Analyzer) : Prop := ∀ d ∈ σ.diagnostics, d.isUninitialized = false

/-- No field has been moved out of anything. The walk never moves one. -/
def Tidy (σ : Analyzer) : Prop := ∀ scope ∈ σ.scopes, ∀ entry ∈ scope, entry.2.movedFields = []

/-! ### Scopes -/

section Scopes

variable {σ : Analyzer} {name : String} {info : VarInfo}

theorem vis_map (scopes : List OwnershipScope) (name : String) :
    vis (scopes.map scopeView) name = (lookupIn scopes name).map VarInfo.assigned := by
  induction scopes with
  | nil => rfl
  | cons scope scopes ih =>
    rw [List.map_cons, lookupIn]
    show ((scope.lookup name).map VarInfo.assigned).or (vis (scopes.map scopeView) name) = _
    cases scope.lookup name with
    | none => exact ih
    | some info => rfl

theorem vis_view (σ : Analyzer) (name : String) :
    vis σ.view name = (σ.lookupVar name).map VarInfo.assigned :=
  vis_map σ.scopes name

theorem view_pushScope (σ : Analyzer) : σ.pushScope.view = ((), Layer.empty) :: σ.view := rfl

theorem view_popScope (σ : Analyzer) : σ.popScope.view = σ.view.tail := List.map_tail

theorem lookup_cons (scope : OwnershipScope) (name y : String) (info : VarInfo) :
    List.lookup y ((name, info) :: scope) = if y = name then some info else scope.lookup y := by
  rw [List.lookup_cons]
  by_cases hy : y = name
  · simp [hy]
  · simp [hy, beq_false_of_ne hy]

theorem scopeView_cons (scope : OwnershipScope) (name : String) (info : VarInfo) :
    scopeView ((name, info) :: scope)
      = ((), Function.update (scopeView scope).2 name (some info.assigned)) := by
  refine Prod.ext rfl ?_
  funext y
  show (List.lookup y ((name, info) :: scope)).map VarInfo.assigned = _
  rw [lookup_cons]
  by_cases hy : y = name <;> simp [hy, scopeView]

theorem view_defineVar (σ : Analyzer) (name : String) (info : VarInfo) :
    (σ.defineVar name info).view = declare name info.assigned σ.view := by
  rw [defineVar.eq_def]
  cases hs : σ.scopes with
  | nil => simp [view, hs, declare]
  | cons scope scopes =>
    show scopeView _ :: scopes.map scopeView = declare _ _ (σ.scopes.map scopeView)
    rw [scopeView_cons, hs]
    rfl

variable {f : VarInfo → VarInfo}

theorem view_modifyIn {b : Bool} (hf : ∀ info, (f info).assigned = b) (scopes : List OwnershipScope)
    (name : String) :
    (modifyIn f scopes name).map scopeView = put name b (scopes.map scopeView) := by
  induction scopes with
  | nil => rfl
  | cons scope scopes ih =>
    rw [modifyIn.eq_def]
    cases hl : scope.lookup name with
    | none => simp [put, scopeView, hl, ih]
    | some info =>
      have hv : (scopeView scope).2 name = some info.assigned := by simp [scopeView, hl]
      simp only [hl, List.map_cons, scopeView_cons, hf]
      simp [put, hv]

theorem view_modifyVar {b : Bool} (hf : ∀ info, (f info).assigned = b) (σ : Analyzer)
    (name : String) : (σ.modifyVar name f).view = put name b σ.view :=
  view_modifyIn hf σ.scopes name

theorem mem_of_lookup {scope : OwnershipScope} (h : scope.lookup name = some info) :
    (name, info) ∈ scope := by
  obtain ⟨l₁, l₂, rfl, -⟩ := List.lookup_eq_some_iff.1 h
  simp

theorem mem_of_lookupIn {scopes : List OwnershipScope} (h : lookupIn scopes name = some info) :
    ∃ scope ∈ scopes, (name, info) ∈ scope := by
  induction scopes with
  | nil => cases h
  | cons scope scopes ih =>
    rw [lookupIn.eq_def] at h
    cases hl : scope.lookup name with
    | none =>
      obtain ⟨s, hs, he⟩ := ih (by simpa [hl] using h)
      exact ⟨s, List.mem_cons_of_mem _ hs, he⟩
    | some i =>
      have hi : i = info := by simpa [hl] using h
      exact ⟨scope, List.mem_cons_self, hi ▸ mem_of_lookup hl⟩

theorem Tidy.lookup (h : σ.Tidy) (hl : σ.lookupVar name = some info) : info.movedFields = [] := by
  obtain ⟨scope, hs, he⟩ := mem_of_lookupIn hl
  exact h scope hs _ he

theorem Tidy.pushScope (h : σ.Tidy) : σ.pushScope.Tidy := by
  intro scope hs
  rcases List.mem_cons.1 hs with rfl | hs
  · nofun
  · exact h scope hs

theorem Tidy.popScope (h : σ.Tidy) : σ.popScope.Tidy :=
  fun scope hs => h scope (List.mem_of_mem_tail hs)

theorem Tidy.defineVar (h : σ.Tidy) (hi : info.movedFields = []) : (σ.defineVar name info).Tidy := by
  intro scope hs
  rw [defineVar.eq_def] at hs
  cases hσ : σ.scopes with
  | nil =>
    simp only [hσ] at hs
    exact h scope (hσ ▸ hs)
  | cons s₀ scopes =>
    simp only [hσ] at hs
    rcases List.mem_cons.1 hs with rfl | hs
    · intro entry he
      rcases List.mem_cons.1 he with rfl | he
      · exact hi
      · exact h s₀ (hσ ▸ List.mem_cons_self) entry he
    · exact h scope (hσ ▸ List.mem_cons_of_mem _ hs)

theorem tidy_modifyIn (hf : ∀ info, info.movedFields = [] → (f info).movedFields = [])
    {scopes : List OwnershipScope} (h : ∀ scope ∈ scopes, ∀ entry ∈ scope, entry.2.movedFields = [])
    :
    ∀ scope ∈ modifyIn f scopes name, ∀ entry ∈ scope, entry.2.movedFields = [] := by
  induction scopes with
  | nil => nofun
  | cons s₀ scopes ih =>
    intro scope hs
    rw [modifyIn.eq_def] at hs
    have htail := fun s hs => h s (List.mem_cons_of_mem s₀ hs)
    cases hl : s₀.lookup name with
    | none =>
      simp only [hl] at hs
      rcases List.mem_cons.1 hs with rfl | hs
      · exact h _ List.mem_cons_self
      · exact ih htail scope hs
    | some info =>
      simp only [hl] at hs
      rcases List.mem_cons.1 hs with rfl | hs
      · intro entry he
        rcases List.mem_cons.1 he with rfl | he
        · exact hf info (h s₀ List.mem_cons_self _ (mem_of_lookup hl))
        · exact h s₀ List.mem_cons_self entry he
      · exact htail scope hs

theorem Tidy.modifyVar (h : σ.Tidy) (hf : ∀ info, info.movedFields = [] → (f info).movedFields = [])
    :
    (σ.modifyVar name f).Tidy :=
  tidy_modifyIn hf h

end Scopes

/-! ### Reports -/

section Reports

variable {σ : Analyzer} {d : Diagnostic}

theorem Quiet.of_report (h : (σ.report d).Quiet) : σ.Quiet :=
  fun e he => h e (List.mem_append_left _ he)

theorem not_quiet_report (hd : d.isUninitialized = true) : ¬ (σ.report d).Quiet := by
  intro h
  have := h d (List.mem_append_right _ (List.mem_singleton_self d))
  rw [hd] at this
  cases this

end Reports

/-! ### Refinement -/

/-- A part of the walk, and the paths through the code it walks over. -/
def Refines (f : Analyzer → Analyzer) (p : Prog String) : Prop :=
  ∀ σ : Analyzer, σ.Tidy → (f σ).Tidy ∧
    ((f σ).Quiet → σ.Quiet ∧ p.clean σ.view ∧ (f σ).view = mark p.kept σ.view)

def RefinesBody (f : Analyzer → Analyzer) (b : Body String) : Prop :=
  ∀ σ : Analyzer, σ.Tidy → (f σ).Tidy ∧
    ((f σ).Quiet → σ.Quiet ∧ b.clean σ.view ∧ (f σ).view = b.after σ.view)

/-- A part of the walk that neither reports E0301 nor changes the view. -/
def Plain (f : Analyzer → Analyzer) : Prop :=
  ∀ σ : Analyzer, σ.Tidy → (f σ).Tidy ∧ ((f σ).Quiet → σ.Quiet ∧ (f σ).view = σ.view)

section Refinement

variable {f g : Analyzer → Analyzer} {p q : Prog String} {b : Body String}

theorem Refines.seq (hf : Refines f p) (hg : Refines g q) : Refines (fun σ => g (f σ)) (.seq p q) := by
  intro σ ht
  obtain ⟨ht₁, h₁⟩ := hf σ ht
  obtain ⟨ht₂, h₂⟩ := hg (f σ) ht₁
  refine ⟨ht₂, fun hq => ?_⟩
  obtain ⟨hq₁, hc₂, hv₂⟩ := h₂ hq
  obtain ⟨hq₀, hc₁, hv₁⟩ := h₁ hq₁
  rw [hv₁] at hc₂ hv₂
  exact ⟨hq₀, ⟨hc₁, hc₂⟩, by rw [hv₂, mark_mark]; rfl⟩

theorem Plain.skip (hf : Plain f) {p : Prog String} (hp : ∀ v, p.clean v) (hk : p.kept = []) :
    Refines f p := by
  intro σ ht
  obtain ⟨ht₁, h₁⟩ := hf σ ht
  refine ⟨ht₁, fun hq => ?_⟩
  obtain ⟨hq₀, hv⟩ := h₁ hq
  exact ⟨hq₀, hp _, by rw [hv, hk, mark_nil]⟩

theorem Plain.id : Plain fun σ => σ := fun _ ht => ⟨ht, fun hq => ⟨hq, rfl⟩⟩

theorem Plain.comp (hf : Plain f) (hg : Plain g) : Plain fun σ => g (f σ) := by
  intro σ ht
  obtain ⟨ht₁, h₁⟩ := hf σ ht
  obtain ⟨ht₂, h₂⟩ := hg (f σ) ht₁
  refine ⟨ht₂, fun hq => ?_⟩
  obtain ⟨hq₁, hv₂⟩ := h₂ hq
  obtain ⟨hq₀, hv₁⟩ := h₁ hq₁
  exact ⟨hq₀, hv₂.trans hv₁⟩

theorem Refines.before (hg : Refines g p) (hf : Plain f) : Refines (fun σ => g (f σ)) p := by
  intro σ ht
  obtain ⟨ht₁, h₁⟩ := hf σ ht
  obtain ⟨ht₂, h₂⟩ := hg (f σ) ht₁
  refine ⟨ht₂, fun hq => ?_⟩
  obtain ⟨hq₁, hc, hv₂⟩ := h₂ hq
  obtain ⟨hq₀, hv₁⟩ := h₁ hq₁
  exact ⟨hq₀, hv₁ ▸ hc, hv₁ ▸ hv₂⟩

theorem RefinesBody.nil : RefinesBody (fun σ => σ) .nil := fun _ ht => ⟨ht, fun hq => ⟨hq, trivial, rfl⟩⟩

theorem RefinesBody.step (hf : Refines f p) (hg : RefinesBody g b) :
    RefinesBody (fun σ => g (f σ)) (.step p b) := by
  intro σ ht
  obtain ⟨ht₁, h₁⟩ := hf σ ht
  obtain ⟨ht₂, h₂⟩ := hg (f σ) ht₁
  refine ⟨ht₂, fun hq => ?_⟩
  obtain ⟨hq₁, hc₂, hv₂⟩ := h₂ hq
  obtain ⟨hq₀, hc₁, hv₁⟩ := h₁ hq₁
  rw [hv₁] at hc₂ hv₂
  exact ⟨hq₀, ⟨hc₁, hc₂⟩, hv₂⟩

theorem RefinesBody.define {name : String} {info : Analyzer → VarInfo} {init : Bool}
    (hi : ∀ σ, (info σ).movedFields = [] ∧ (info σ).assigned = init) (hg : RefinesBody g b) :
    RefinesBody (fun σ => g (σ.defineVar name (info σ))) (.declare name init b) := by
  intro σ ht
  obtain ⟨ht₂, h₂⟩ := hg (σ.defineVar name (info σ)) (ht.defineVar (hi σ).1)
  refine ⟨ht₂, fun hq => ?_⟩
  obtain ⟨hq₁, hc₂, hv₂⟩ := h₂ hq
  rw [view_defineVar, (hi σ).2] at hc₂ hv₂
  have hq₀ : σ.Quiet := by
    rw [defineVar.eq_def] at hq₁
    cases hs : σ.scopes <;> simpa [hs, Quiet] using hq₁
  exact ⟨hq₀, hc₂, hv₂⟩

theorem RefinesBody.scope (hg : RefinesBody g b) :
    Refines (fun σ => (g σ.pushScope).popScope) (.scope b) := by
  intro σ ht
  obtain ⟨ht₁, h₁⟩ := hg σ.pushScope ht.pushScope
  refine ⟨ht₁.popScope, fun hq => ?_⟩
  obtain ⟨hq₀, hc, hv⟩ := h₁ hq
  refine ⟨hq₀, hc, ?_⟩
  obtain ⟨h', he⟩ := b.after_scope () σ.view
  rw [view_popScope, hv, view_pushScope, he]
  rfl

end Refinement

/-! ### Uses -/

section Uses

variable {σ σ₀ : Analyzer} {name : String}

theorem checkUsable_cases (σ : Analyzer) (name : String) (span : Span) :
    (vis σ.view name ≠ some false ∧
      (σ.checkUsable name span = σ ∨ ∃ d, σ.checkUsable name span = σ.report d)) ∨
    ∃ d, d.isUninitialized = true ∧ σ.checkUsable name span = σ.report d := by
  rw [checkUsable.eq_def, vis_view]
  cases hl : σ.lookupVar name with
  | none => exact .inl ⟨nofun, .inl rfl⟩
  | some info =>
    show (some info.assigned ≠ some false ∧ _) ∨ _
    cases hs : info.state with
    | uninitialized => exact .inr ⟨_, rfl, by simp [hs]; rfl⟩
    | moved => exact .inl ⟨by simp [VarInfo.assigned, hs], .inr ⟨_, by simp [hs]; rfl⟩⟩
    | owned => exact .inl ⟨by simp [VarInfo.assigned, hs], .inl (by simp [hs])⟩
    | shared => exact .inl ⟨by simp [VarInfo.assigned, hs], .inl (by simp [hs])⟩
    | partiallyMoved => exact .inl ⟨by simp [VarInfo.assigned, hs], .inl (by simp [hs])⟩

theorem refines_checkUsable (name : String) (span : Span) :
    Refines (fun σ => σ.checkUsable name span) (.read name) := by
  intro σ ht
  show (σ.checkUsable name span).Tidy ∧ ((σ.checkUsable name span).Quiet →
    _ ∧ _ ∧ (σ.checkUsable name span).view = _)
  rw [Prog.kept, mark_nil]
  rcases checkUsable_cases σ name span with ⟨hc, he | ⟨d, he⟩⟩ | ⟨d, hd, he⟩ <;> rw [he]
  · exact ⟨ht, fun hq => ⟨hq, hc, rfl⟩⟩
  · exact ⟨ht, fun hq => ⟨hq.of_report, hc, rfl⟩⟩
  · exact ⟨ht, fun hq => absurd hq (not_quiet_report hd)⟩

theorem plain_checkUsable (name : String) (span : Span) :
    Plain fun σ => σ.checkUsable name span := by
  intro σ ht
  obtain ⟨ht₁, h⟩ := refines_checkUsable name span σ ht
  refine ⟨ht₁, fun hq => ?_⟩
  obtain ⟨hq₀, -, hv⟩ := h hq
  exact ⟨hq₀, by rw [hv, Prog.kept, mark_nil]⟩

theorem moveVar_cases (σ : Analyzer) (name : String) (span : Span) :
    σ.moveVar name span = σ ∨ σ.moveVar name span =
      σ.modifyVar name fun info => { info with state := .moved, movedSpan := some span } := by
  rw [moveVar.eq_def]
  split
  · exact .inl rfl
  · split
    · exact .inl rfl
    · exact .inr rfl

theorem refines_moveVar (name : String) (span : Span) :
    Refines (fun σ => (σ.checkUsable name span).moveVar name span) (.read name) := by
  intro σ ht
  obtain ⟨ht₁, h⟩ := refines_checkUsable name span σ ht
  show ((σ.checkUsable name span).moveVar name span).Tidy ∧
    (((σ.checkUsable name span).moveVar name span).Quiet →
      _ ∧ _ ∧ ((σ.checkUsable name span).moveVar name span).view = _)
  rcases moveVar_cases (σ.checkUsable name span) name span with he | he <;> rw [he]
  · exact ⟨ht₁, h⟩
  · refine ⟨ht₁.modifyVar fun _ h => h, fun hq => ?_⟩
    obtain ⟨hq₀, hc, hv⟩ := h hq
    refine ⟨hq₀, hc, ?_⟩
    rw [view_modifyVar (b := true) fun _ => rfl, hv]
    exact put_eq_self (by rw [Prog.kept, mark_nil]; exact hc)

theorem refines_assignVar (name : String) : Refines (fun σ => σ.assignVar name) (.assign name) := by
  intro σ ht
  refine ⟨ht.modifyVar fun _ _ => rfl, fun hq => ⟨hq, trivial, ?_⟩⟩
  rw [Prog.kept, mark_singleton]
  exact view_modifyVar (b := true) (fun _ => rfl) σ name

/-! ### Branches -/

theorem mem_snapshotFull {entry : String × OwnershipState × List String}
    (h : entry ∈ σ.snapshotFull) :
    ∃ info, σ.lookupVar entry.1 = some info ∧ entry.2 = (info.state, info.movedFields) := by
  obtain ⟨name, -, he⟩ := List.mem_filterMap.1 h
  obtain ⟨info, hl, rfl⟩ := Option.map_eq_some_iff.1 he
  exact ⟨info, hl, rfl⟩

theorem exists_mem_snapshotFull {info : VarInfo} (h : σ.lookupVar name = some info) :
    (name, info.state, info.movedFields) ∈ σ.snapshotFull := by
  obtain ⟨scope, hs, he⟩ := mem_of_lookupIn h
  refine List.mem_filterMap.2 ⟨name, ?_, by rw [h]; rfl⟩
  exact List.mem_dedup.2 (List.mem_map.2 ⟨(name, info), List.mem_flatten.2 ⟨scope, hs, he⟩, rfl⟩)

theorem view_restoreFull (σ : Analyzer) (before : Snapshot) :
    (σ.restoreFull before).view =
      (before.map fun e => (e.1, decide (e.2.1 ≠ .uninitialized))).foldl
        (fun t e => put e.1 e.2 t) σ.view := by
  induction before generalizing σ with
  | nil => rfl
  | cons e before ih =>
    have he : (σ.modifyVar e.1 fun info =>
        { info with state := e.2.1, movedFields := e.2.2 }).view
          = put e.1 (decide (e.2.1 ≠ .uninitialized)) σ.view :=
      view_modifyVar (b := decide (e.2.1 ≠ .uninitialized)) (fun _ => rfl) σ e.1
    show (restoreFull (σ.modifyVar e.1 fun info =>
      { info with state := e.2.1, movedFields := e.2.2 }) before).view = _
    rw [ih, he]
    rfl

theorem Tidy.restoreFull (h : σ.Tidy) {before : Snapshot} (hb : ∀ e ∈ before, e.2.2 = []) :
    (σ.restoreFull before).Tidy := by
  induction before generalizing σ with
  | nil => exact h
  | cons e before ih =>
    refine ih (h.modifyVar fun _ _ => hb e List.mem_cons_self) fun e' he' => ?_
    exact hb e' (List.mem_cons_of_mem e he')

theorem diagnostics_restoreFull (σ : Analyzer) (before : Snapshot) :
    (σ.restoreFull before).diagnostics = σ.diagnostics := by
  induction before generalizing σ with
  | nil => rfl
  | cons e before ih => exact ih _

/-- `σ` comes from `σ₀` along some path that stays in the scopes of `σ₀`. -/
def Along (σ₀ σ : Analyzer) : Prop :=
  σ.Tidy ∧ (σ.Quiet → σ₀.Quiet ∧ ∃ K, σ.view = mark K σ₀.view)

/-- Back to the state before the branch. -/
theorem Along.restore (h : Along σ₀ σ) (h₀ : σ₀.Tidy) :
    (σ.restoreFull σ₀.snapshotFull).Tidy ∧ ((σ.restoreFull σ₀.snapshotFull).Quiet →
      σ.Quiet ∧ (σ.restoreFull σ₀.snapshotFull).view = σ₀.view) := by
  refine ⟨h.1.restoreFull fun e he => ?_, fun hq => ?_⟩
  · obtain ⟨info, hl, hinfo⟩ := mem_snapshotFull he
    rw [hinfo]
    exact h₀.lookup hl
  · have hq : σ.Quiet := by
      rw [Quiet, diagnostics_restoreFull] at hq
      exact hq
    obtain ⟨-, K, hK⟩ := h.2 hq
    have hsame : Same (fun _ => False) σ₀.view σ.view :=
      hK ▸ (Same.refl _ σ₀.view).mark fun _ _ => not_false
    refine ⟨hq, ?_⟩
    rw [view_restoreFull]
    refine hsame.puts_eq (fun e he => ?_) fun x => ?_
    · obtain ⟨e', he', rfl⟩ := List.mem_map.1 he
      obtain ⟨info, hl, hinfo⟩ := mem_snapshotFull he'
      rw [vis_view, hl, hinfo]
      rfl
    · cases hl : σ₀.lookupVar x with
      | none =>
        right
        rw [hK, vis_mark, vis_view, hl]
        simp
      | some info =>
        left
        have := exists_mem_snapshotFull hl
        simp only [List.map_map, List.mem_map]
        exact ⟨_, this, rfl⟩

theorem view_restoreState {state : OwnershipState} (hs : state ≠ .uninitialized)
    (h : vis σ.view name ≠ some false) : (σ.restoreState name state).view = σ.view := by
  rw [restoreState, view_modifyVar (b := true) fun _ => by simp [VarInfo.assigned, hs]]
  exact put_eq_self h

theorem warnMove_cases (σ : Analyzer) (warnAt : Option Span) (branches : List Analyzer)
    (name : String) :
    σ.warnMove warnAt branches name = σ ∨ ∃ d, σ.warnMove warnAt branches name = σ.report d := by
  rw [warnMove.eq_def]
  split
  · split
    · exact .inr ⟨_, rfl⟩
    · exact .inl rfl
  · exact .inl rfl

theorem warnMove_spec (ht : σ.Tidy) (warnAt : Option Span) (branches : List Analyzer)
    (name : String) :
    (σ.warnMove warnAt branches name).Tidy ∧ ((σ.warnMove warnAt branches name).Quiet → σ.Quiet) ∧
      (σ.warnMove warnAt branches name).view = σ.view := by
  rcases warnMove_cases σ warnAt branches name with he | ⟨d, he⟩ <;> rw [he]
  · exact ⟨ht, id, rfl⟩
  · exact ⟨ht, Quiet.of_report, rfl⟩

/-- A variable that was owned before is never set to `Uninitialized`. -/
theorem mergeMove_spec (entry : String × OwnershipState × List String) (covered : Bool)
    (warnAt : Option Span) (branches : List Analyzer) (ht : σ.Tidy) :
    (mergeMove covered warnAt branches σ entry).Tidy ∧
      ((mergeMove covered warnAt branches σ entry).Quiet → σ.Quiet) ∧
      ((entry.2.1 = .owned → vis σ.view entry.1 ≠ some false) →
        (mergeMove covered warnAt branches σ entry).view = σ.view) := by
  obtain ⟨ht₁, hq₁, hv₁⟩ := warnMove_spec ht warnAt branches entry.1
  by_cases howned : entry.2.1 = .owned
  · have hset : ∀ state, state ≠ .uninitialized →
        ((σ.warnMove warnAt branches entry.1).restoreState entry.1 state).Tidy ∧
        (((σ.warnMove warnAt branches entry.1).restoreState entry.1 state).Quiet → σ.Quiet) ∧
        ((entry.2.1 = .owned → vis σ.view entry.1 ≠ some false) →
          ((σ.warnMove warnAt branches entry.1).restoreState entry.1 state).view = σ.view) := by
      intro state hs
      exact ⟨ht₁.modifyVar fun _ _ => rfl, hq₁,
        fun h => (view_restoreState hs (hv₁ ▸ h howned)).trans hv₁⟩
    rw [mergeMove, if_neg (not_not.2 howned)]
    split
    · exact hset .moved nofun
    · split
      · exact hset .owned nofun
      · exact ⟨ht₁, hq₁, fun _ => hv₁⟩
  · rw [mergeMove, if_pos howned]
    exact ⟨ht, id, fun _ => rfl⟩

theorem mergeMoves_spec (before : Snapshot) (covered : Bool) (warnAt : Option Span)
    (branches : List Analyzer) (ht : σ.Tidy) :
    (mergeMoves before covered warnAt branches σ).Tidy ∧
      ((mergeMoves before covered warnAt branches σ).Quiet → σ.Quiet) ∧
      ((∀ e ∈ before, e.2.1 = .owned → vis σ.view e.1 ≠ some false) →
        (mergeMoves before covered warnAt branches σ).view = σ.view) := by
  induction before generalizing σ with
  | nil => exact ⟨ht, id, fun _ => rfl⟩
  | cons e before ih =>
    obtain ⟨ht₁, hq₁, hv₁⟩ := mergeMove_spec e covered warnAt branches ht
    obtain ⟨ht₂, hq₂, hv₂⟩ := ih ht₁
    refine ⟨ht₂, fun hq => hq₁ (hq₂ hq), fun h => ?_⟩
    have hv := hv₁ (h e List.mem_cons_self)
    refine (hv₂ fun e' he' => ?_).trans hv
    rw [hv]
    exact h e' (List.mem_cons_of_mem e he')

/-- Joining the moves of the branches does not matter here. -/
theorem Along.merge (h : Along σ₀ σ) (covered : Bool) (warnAt : Option Span)
    (branches : List Analyzer) :
    (mergeMoves σ₀.snapshotFull covered warnAt branches σ).Tidy ∧
      ((mergeMoves σ₀.snapshotFull covered warnAt branches σ).Quiet →
        σ.Quiet ∧ (mergeMoves σ₀.snapshotFull covered warnAt branches σ).view = σ.view) := by
  obtain ⟨ht, hq, hv⟩ :=
    mergeMoves_spec σ₀.snapshotFull covered warnAt branches h.1
  refine ⟨ht, fun hquiet => ⟨hq hquiet, hv fun e he howned => ?_⟩⟩
  obtain ⟨-, K, hK⟩ := h.2 (hq hquiet)
  obtain ⟨info, hl, hinfo⟩ := mem_snapshotFull he
  have hvis : vis σ₀.view e.1 = some true := by
    rw [hinfo] at howned
    have hstate : info.state = .owned := howned
    rw [vis_view, hl]
    simp [VarInfo.assigned, hstate]
  rw [hK, vis_mark, hvis]
  split <;> simp

/-- `σ` is the state after the paths `p` from `σ₀`. -/
def After (σ₀ : Analyzer) (p : Prog String) (σ : Analyzer) : Prop :=
  σ.Tidy ∧ (σ.Quiet → σ₀.Quiet ∧ p.clean σ₀.view ∧ σ.view = mark p.kept σ₀.view)

variable {p q : Prog String} {g : Analyzer → Analyzer}

theorem After.along (h : After σ₀ p σ) : Along σ₀ σ := by
  refine ⟨h.1, fun hq => ?_⟩
  obtain ⟨hq₀, -, hv⟩ := h.2 hq
  exact ⟨hq₀, p.kept, hv⟩

theorem Along.refl (h : σ.Tidy) : Along σ σ := ⟨h, fun hq => ⟨hq, [], (mark_nil _).symm⟩⟩

/-- The next branch starts from the state before the branches. -/
theorem Along.branch (h : Along σ₀ σ) (h₀ : σ₀.Tidy) (hg : Refines g q) :
    (g (σ.restoreFull σ₀.snapshotFull)).Tidy ∧ ((g (σ.restoreFull σ₀.snapshotFull)).Quiet →
      σ.Quiet ∧ q.clean σ₀.view ∧
        (g (σ.restoreFull σ₀.snapshotFull)).view = mark q.kept σ₀.view) := by
  obtain ⟨ht₁, h₁⟩ := h.restore h₀
  obtain ⟨ht₂, h₂⟩ := hg _ ht₁
  refine ⟨ht₂, fun hq => ?_⟩
  obtain ⟨hq₁, hc, hv⟩ := h₂ hq
  obtain ⟨hq₀, hv₁⟩ := h₁ hq₁
  exact ⟨hq₀, hv₁ ▸ hc, hv₁ ▸ hv⟩

theorem After.orElse (h : After σ₀ p σ) (h₀ : σ₀.Tidy) (hg : Refines g q) :
    After σ₀ (.orElse p q) (g (σ.restoreFull σ₀.snapshotFull)) := by
  obtain ⟨ht, hb⟩ := h.along.branch h₀ hg
  refine ⟨ht, fun hq => ?_⟩
  obtain ⟨hq₁, hc, hv⟩ := hb hq
  obtain ⟨hq₀, hc₀, -⟩ := h.2 hq₁
  exact ⟨hq₀, ⟨hc₀, hc⟩, hv⟩

theorem After.merge (h : After σ₀ p σ) (covered : Bool) (warnAt : Option Span)
    (branches : List Analyzer) :
    After σ₀ p (mergeMoves σ₀.snapshotFull covered warnAt branches σ) := by
  obtain ⟨ht, hm⟩ := h.along.merge covered warnAt branches
  refine ⟨ht, fun hq => ?_⟩
  obtain ⟨hq₁, hv⟩ := hm hq
  obtain ⟨hq₀, hc, hv₀⟩ := h.2 hq₁
  exact ⟨hq₀, hc, hv.trans hv₀⟩

/-- `mayLeave` before a branch is nothing to the analysis. -/
theorem Refines.mayLeave (e : Exit) (hg : Refines g p) : Refines g (.seq (.mayLeave e) p) := by
  have hskip : Refines (fun σ => σ) (.mayLeave e) := Plain.id.skip (fun _ => trivial) rfl
  exact hskip.seq hg

theorem Refines.perhaps (hg : Refines g p) : Refines g p.perhaps := hg.mayLeave .next

end Uses

/-! ### Bindings -/

section Bindings

variable {f g : Analyzer → Analyzer} {b : Body String}

theorem plain_of_eq (h : ∀ σ, (f σ).scopes = σ.scopes ∧ (f σ).diagnostics = σ.diagnostics) :
    Plain f := by
  intro σ ht
  obtain ⟨hs, hd⟩ := h σ
  refine ⟨fun scope hscope => ht scope (hs ▸ hscope), fun hq => ⟨fun d hmem => hq d (hd ▸ hmem), ?_⟩⟩
  rw [view, view, hs]

theorem plain_recordStructName (name : String) (s : Analyzer → Option String) :
    Plain fun σ => σ.recordStructName name (s σ) := by
  refine plain_of_eq fun σ => ?_
  show (σ.recordStructName name (s σ)).scopes = _ ∧ (σ.recordStructName name (s σ)).diagnostics = _
  cases s σ <;> exact ⟨rfl, rfl⟩

theorem plain_recordTupleElems (name : String) (tys : Analyzer → Option (List TypeExpr)) :
    Plain fun σ => σ.recordTupleElems name (tys σ) := by
  refine plain_of_eq fun σ => ?_
  show (σ.recordTupleElems name (tys σ)).scopes = _ ∧
    (σ.recordTupleElems name (tys σ)).diagnostics = _
  cases tys σ <;> exact ⟨rfl, rfl⟩

theorem plain_recordElemIsCopy (name : String) (c : Analyzer → Option Bool) :
    Plain fun σ => σ.recordElemIsCopy name (c σ) := by
  refine plain_of_eq fun σ => ?_
  show (σ.recordElemIsCopy name (c σ)).scopes = _ ∧ (σ.recordElemIsCopy name (c σ)).diagnostics = _
  cases c σ <;> exact ⟨rfl, rfl⟩

theorem plain_recordLet (name : String) (ty : Option TypeExpr) (init : Expr) :
    Plain fun σ => σ.recordLet name ty init :=
  ((plain_recordStructName name fun σ =>
      ((σ.initStructName init).or (tyStructName ty)).filter fun s =>
        (σ.structFields.lookup s).isSome).comp
    (plain_recordTupleElems name fun σ => (tyTupleElems ty).or (σ.initTupleElems init))).comp
      (plain_recordElemIsCopy name fun σ => (σ.tyElemIsCopy ty).or (σ.initElemIsCopy init))

theorem RefinesBody.before (hg : RefinesBody g b) (hf : Plain f) :
    RefinesBody (fun σ => g (f σ)) b := by
  intro σ ht
  obtain ⟨ht₁, h₁⟩ := hf σ ht
  obtain ⟨ht₂, h₂⟩ := hg (f σ) ht₁
  refine ⟨ht₂, fun hq => ?_⟩
  obtain ⟨hq₁, hc, hv₂⟩ := h₂ hq
  obtain ⟨hq₀, hv₁⟩ := h₁ hq₁
  exact ⟨hq₀, hv₁ ▸ hc, hv₁ ▸ hv₂⟩

theorem RefinesBody.bindNames (init : Bool) (names : List String) (hg : RefinesBody g b) :
    RefinesBody g (bindNames init names b) := by
  induction names with
  | nil => exact hg
  | cons name names ih => exact ih

theorem RefinesBody.params {define : Analyzer → Param → Analyzer} (params : List Param)
    (hd : ∀ param g b, RefinesBody g b →
      RefinesBody (fun σ => g (define σ param)) (.declare (paramName param) true b))
    (hg : RefinesBody g b) :
    RefinesBody (fun σ => g (params.foldl define σ)) (paramNames params b) := by
  induction params with
  | nil => exact hg
  | cons param params ih => exact hd param _ _ ih

theorem RefinesBody.defineParam (c : Bool) (param : Param) (hg : RefinesBody g b) :
    RefinesBody (fun σ => g (σ.defineParam c param)) (.declare (paramName param) true b) := by
  cases param with
  | mk name ty d span => exact hg.define fun _ => ⟨rfl, rfl⟩

theorem RefinesBody.defineLambdaParam (param : Param) (hg : RefinesBody g b) :
    RefinesBody (fun σ => g (σ.defineLambdaParam param)) (.declare (paramName param) true b) := by
  cases param with
  | mk name ty d span =>
    exact (hg.before (plain_recordTupleElems name fun _ => tyTupleElems ty)).defineParam true
      (.mk name ty d span)

theorem RefinesBody.defineFunctionParam (param : Param) (hg : RefinesBody g b) :
    RefinesBody (fun σ => g (σ.defineFunctionParam param)) (.declare (paramName param) true b) := by
  cases param with
  | mk name ty d span =>
    have hcopy := (hg.before (plain_recordTupleElems name fun _ => tyTupleElems ty)).before
      (plain_recordElemIsCopy name fun σ => σ.tyElemIsCopy ty)
    have hstruct := hcopy.before (plain_recordStructName name fun _ => tyStructName ty)
    exact hstruct.defineParam false (.mk name ty d span)

theorem RefinesBody.defineLet (name : String) (mutable : Bool) (ty : Option TypeExpr) (init : Expr)
    (isCopy : Bool) (span : Span) (hg : RefinesBody g b) :
    RefinesBody (fun σ => g (σ.defineLet name mutable ty init isCopy span))
      (.declare name true b) := by
  cases init with
  | sharedExpr | weakExpr => exact hg.define fun _ => ⟨rfl, rfl⟩
  | _ => exact (hg.before (plain_recordLet name ty _)).define fun _ => ⟨rfl, rfl⟩

end Bindings

end Analyzer

end Kryos.Ownership

import Mathlib.Data.Finset.Prod
import Kryos.Types.CapEngine

/-!
# What a binding does to the engine

Every operation on the substitution widens it and leaves the sets of storage variables alone;
`Grows` says so once for all of them. The epoch counts the bindings that changed something, so two
states of one run with the same epoch have the same substitution.

From the growth follows that the recursion of `bindCapVar` ends: each level makes one more variable
cover one more of finitely many rows. `bindCapVar_eq` is the recursion of the source, without fuel.
-/

namespace Kryos.Types.CapEngine

variable {σ τ : CapEngine}

/-- The substitution of `σ'` holds at least what that of `σ` holds, and the sets of storage
variables are the same. -/
structure Widens (σ σ' : CapEngine) : Prop where
  slots : σ'.slotCapVars = σ.slotCapVars
  globals : σ'.globalSlotCapVars = σ.globalSlotCapVars
  inputs : σ'.inputStorageCapVars = σ.inputStorageCapVars
  frozen : ∀ v, σ'.isFrozen v = σ.isFrozen v
  effects : σ'.storeEffects = σ.storeEffects
  lambdas : σ'.lambdaInputStores = σ.lambdaInputStores
  widen : ∀ v r, σ.binding v = some r → ∃ r', σ'.binding v = some r' ∧ r ≤ r'
  epoch : σ.capEpoch ≤ σ'.capEpoch
  same : σ'.capEpoch = σ.capEpoch → σ'.capSubstitutions = σ.capSubstitutions
  changed : σ'.capEpoch ≠ σ.capEpoch → ∃ v, σ'.binding v ≠ σ.binding v

/-- A step that leaves everything but the recorded stores alone. -/
theorem Widens.of_eq {σ' : CapEngine} (hs : σ'.slotCapVars = σ.slotCapVars)
    (hg : σ'.globalSlotCapVars = σ.globalSlotCapVars)
    (hi : σ'.inputStorageCapVars = σ.inputStorageCapVars) (hf : ∀ v, σ'.isFrozen v = σ.isFrozen v)
    (he : σ'.storeEffects = σ.storeEffects) (hl : σ'.lambdaInputStores = σ.lambdaInputStores)
    (hc : σ'.capSubstitutions = σ.capSubstitutions) (hn : σ'.capEpoch = σ.capEpoch) :
    Widens σ σ' :=
  ⟨hs, hg, hi, hf, he, hl, fun v r h => ⟨r, by rwa [binding, hc], le_rfl⟩, hn.ge, fun _ => hc,
    fun h => absurd hn h⟩

theorem Widens.refl (σ : CapEngine) : Widens σ σ :=
  .of_eq rfl rfl rfl (fun _ => rfl) rfl rfl rfl rfl

theorem Widens.trans {σ₁ σ₂ σ₃ : CapEngine} (h : Widens σ₁ σ₂) (h' : Widens σ₂ σ₃) :
    Widens σ₁ σ₃ where
  slots := h'.slots.trans h.slots
  globals := h'.globals.trans h.globals
  inputs := h'.inputs.trans h.inputs
  frozen v := (h'.frozen v).trans (h.frozen v)
  effects := h'.effects.trans h.effects
  lambdas := h'.lambdas.trans h.lambdas
  widen v r hr := by
    obtain ⟨r₂, hr₂, hle⟩ := h.widen v r hr
    obtain ⟨r₃, hr₃, hle'⟩ := h'.widen v r₂ hr₂
    exact ⟨r₃, hr₃, hle.trans hle'⟩
  epoch := Nat.le_trans h.epoch h'.epoch
  same heq := by
    have h₁ := h.epoch
    have h₂ := h'.epoch
    rw [h'.same (by omega), h.same (by omega)]
  changed hne := by
    by_cases heq : σ₂.capEpoch = σ₁.capEpoch
    · obtain ⟨v, hv⟩ := h'.changed (by omega)
      refine ⟨v, ?_⟩
      rwa [binding, binding, h.same heq] at hv
    · obtain ⟨v, hv⟩ := h.changed heq
      refine ⟨v, fun hback => hv ?_⟩
      -- The binding cannot come back to what it was, since it lies below what it became.
      cases hb : σ₁.binding v with
      | none =>
        cases hb₂ : σ₂.binding v with
        | none => rfl
        | some r =>
          obtain ⟨r', hr', -⟩ := h'.widen v r hb₂
          rw [hback, hb] at hr'
          cases hr'
      | some r =>
        obtain ⟨r₂, hr₂, hle⟩ := h.widen v r hb
        obtain ⟨r₃, hr₃, hle'⟩ := h'.widen v r₂ hr₂
        rw [hback, hb] at hr₃
        obtain rfl : r = r₃ := Option.some.inj hr₃
        rw [hr₂, le_antisymm hle' hle]

theorem Widens.foldl {β : Type} {f : CapEngine → β → CapEngine} (hf : ∀ σ b, Widens σ (f σ b))
    (l : List β) (σ : CapEngine) : Widens σ (l.foldl f σ) := by
  induction l generalizing σ with
  | nil => exact Widens.refl σ
  | cons b l ih => exact (hf σ b).trans (ih (f σ b))

/-- The engine went from `σ` to `σ'` by bindings, which only take deferred stores out. -/
structure Grows (σ σ' : CapEngine) : Prop extends Widens σ σ' where
  deferred : ∀ v, σ'.deferredOf v ⊆ σ.deferredOf v

theorem Grows.refl (σ : CapEngine) : Grows σ σ :=
  ⟨Widens.refl σ, fun _ => List.Subset.refl _⟩

theorem Grows.trans {σ₁ σ₂ σ₃ : CapEngine} (h : Grows σ₁ σ₂) (h' : Grows σ₂ σ₃) : Grows σ₁ σ₃ :=
  ⟨h.toWidens.trans h'.toWidens, fun v => List.Subset.trans (h'.deferred v) (h.deferred v)⟩

theorem Grows.foldl {β : Type} {f : CapEngine → β → CapEngine} (hf : ∀ σ b, Grows σ (f σ b))
    (l : List β) (σ : CapEngine) : Grows σ (l.foldl f σ) := by
  induction l generalizing σ with
  | nil => exact Grows.refl σ
  | cons b l ih => exact (hf σ b).trans (ih (f σ b))

@[simp] theorem touch_capSubstitutions (σ : CapEngine) (id : CapVarId) :
    (σ.touch id).capSubstitutions = σ.capSubstitutions := by
  rw [touch]; split <;> rfl

@[simp] theorem touch_binding (σ : CapEngine) (id v : CapVarId) :
    (σ.touch id).binding v = σ.binding v := by
  rw [binding, touch_capSubstitutions, binding]

theorem touch_grows (σ : CapEngine) (id : CapVarId) : Grows σ (σ.touch id) := by
  rw [touch]
  split
  · refine ⟨.of_eq rfl rfl rfl (fun v => ?_) rfl rfl rfl rfl, fun _ => List.Subset.refl _⟩
    simp [isFrozen, Option.any_map]
  · exact Grows.refl σ

theorem touch_capEpoch (σ : CapEngine) (id : CapVarId) :
    (σ.touch id).capEpoch = σ.capEpoch := by
  rw [touch]; split <;> rfl

theorem recordParamStore_grows (σ : CapEngine) (storage : CapVarId) (row : CapRow) :
    Grows σ (σ.recordParamStore storage row) := by
  refine ⟨.of_eq rfl rfl rfl (fun v => ?_) rfl rfl rfl rfl, fun _ => List.Subset.refl _⟩
  show (_ || _) = (_ || _)
  cases hs : σ.effectScope with
  | none => simp [recordParamStore, hs]
  | some s =>
    simp only [recordParamStore, hs, Option.map_some, Option.any_some]
    split <;> rfl

variable {row : CapRow}

/-- A row that is already covered changes nothing. -/
theorem merge_eq_none {existing : Option CapRow} :
    merge existing row = none ↔ ∃ r, existing = some r ∧ row ≤ r := by
  cases existing with
  | none => simp [merge]
  | some r =>
    simp only [merge, ite_eq_left_iff, reduceCtorEq, imp_false, not_not, Option.some.injEq,
      exists_eq_left', sup_eq_left]

variable {merged : CapRow}

theorem merge_eq_some {existing : Option CapRow} (h : merge existing row = some merged) :
    row ≤ merged ∧ (∀ r, existing = some r → r ≤ merged) ∧ existing ≠ some merged := by
  cases existing with
  | none =>
    obtain rfl : row = merged := by simpa [merge] using h
    exact ⟨le_rfl, by simp, by simp⟩
  | some r =>
    rw [merge] at h
    split at h
    · cases h
    · rename_i hne
      obtain rfl : r ⊔ row = merged := by simpa using h
      refine ⟨le_sup_right, ?_, ?_⟩
      · rintro r' ⟨⟩
        exact le_sup_left
      · intro heq
        exact hne (Option.some.inj heq).symm

theorem insertBinding_binding (σ : CapEngine) (id : CapVarId) (merged : CapRow) (v : CapVarId) :
    (σ.insertBinding id merged).binding v = if v = id then some merged else σ.binding v := by
  rw [binding, insertBinding]
  split
  · rename_i h
    rw [h, AList.lookup_insert]
  · rename_i h
    rw [AList.lookup_insert_ne h, binding]

variable {id : CapVarId}

theorem insertBinding_grows (h : merge (σ.binding id) row = some merged) :
    Grows σ (σ.insertBinding id merged) := by
  refine ⟨⟨rfl, rfl, rfl, fun _ => rfl, rfl, rfl, fun v r hr => ?_, Nat.le_succ _,
    fun heq => absurd heq (Nat.succ_ne_self _), fun _ => ⟨id, ?_⟩⟩, fun v => ?_⟩
  · rw [insertBinding_binding]
    split
    · rename_i hv
      rw [hv] at hr
      exact ⟨merged, rfl, (merge_eq_some h).2.1 r hr⟩
    · exact ⟨r, hr, le_rfl⟩
  · rw [insertBinding_binding, if_pos rfl]
    exact (merge_eq_some h).2.2.symm
  · rw [deferredOf, insertBinding]
    by_cases hv : v = id
    · rw [hv, AList.lookup_erase]
      exact List.nil_subset _
    · rw [AList.lookup_erase_ne hv]
      exact List.Subset.refl _

theorem touch_insertBinding_grows (h : merge (σ.binding id) row = some merged) :
    Grows σ ((σ.touch id).insertBinding id merged) := by
  rw [← touch_binding σ id id] at h
  exact (touch_grows σ id).trans (insertBinding_grows h)

theorem storeVia_grows {bind : CapVarId → CapRow → CapEngine → CapEngine}
    (hbind : ∀ id row σ, Grows σ (bind id row σ)) (target : CapVarId) (σ : CapEngine)
    (row : CapRow) : Grows σ (storeVia bind target σ row) := by
  refine Grows.foldl (fun σ slot => ?_) _ σ
  rw [storeSlot]
  split
  · exact recordParamStore_grows σ slot row
  · exact hbind slot row σ

theorem bindFrom_grows (n : ℕ) : ∀ id row σ, Grows σ (bindFrom n id row σ) := by
  induction n with
  | zero => exact fun _ _ σ => Grows.refl σ
  | succ n ih =>
    intro id row σ
    rw [bindFrom]
    split
    · exact touch_grows σ id
    · split
      · exact touch_grows σ id
      · rename_i merged hmerge
        exact (touch_insertBinding_grows hmerge).trans
          ((Grows.foldl (storeVia_grows ih id) _ _).trans
            (Grows.foldl (storeVia_grows ih id) _ _))

theorem bindCapVar_grows (σ : CapEngine) (id : CapVarId) (row : CapRow) :
    Grows σ (σ.bindCapVar id row) :=
  bindFrom_grows _ id row σ

theorem storeIntoInput_grows (σ : CapEngine) (target : CapVarId) (row : CapRow) :
    Grows σ (σ.storeIntoInput target row) :=
  storeVia_grows (fun id row σ => bindCapVar_grows σ id row) target σ row

/-! ### The recursion ends -/

/-- Binding `row` to `id` would change nothing. -/
def Covered (σ : CapEngine) (id : CapVarId) (row : CapRow) : Prop :=
  ∀ r ∈ stripSelf id row, merge (σ.binding id) r = none

instance (σ : CapEngine) (id : CapVarId) (row : CapRow) : Decidable (Covered σ id row) :=
  inferInstanceAs (Decidable (∀ r ∈ stripSelf id row, merge (σ.binding id) r = none))

theorem Covered.mono (h : Widens σ τ) (hc : Covered σ id row) : Covered τ id row := by
  intro r hr
  obtain ⟨b, hb, hle⟩ := merge_eq_none.mp (hc r hr)
  obtain ⟨b', hb', hle'⟩ := h.widen id b hb
  exact merge_eq_none.mpr ⟨b', hb', hle.trans hle'⟩

theorem covered_insertBinding {r : CapRow} (hr : stripSelf id row = some r) (hle : r ≤ merged) :
    Covered (σ.insertBinding id merged) id row := by
  intro r' hr'
  obtain rfl : r = r' := Option.some.inj (hr.symm.trans hr')
  rw [insertBinding_binding, if_pos rfl]
  exact merge_eq_none.mpr ⟨merged, rfl, hle⟩

/-- The pairs of a variable and a row that a binding can still change. -/
def pending (σ : CapEngine) (D : Finset CapVarId) (R : Finset CapRow) :
    Finset (CapVarId × CapRow) :=
  (D ×ˢ R).filter fun p => ¬ Covered σ p.1 p.2

theorem pending_mono (h : Widens σ τ) (D : Finset CapVarId) (R : Finset CapRow) :
    pending τ D R ⊆ pending σ D R := by
  intro p hp
  rw [pending, Finset.mem_filter] at hp ⊢
  exact ⟨hp.1, fun hc => hp.2 (hc.mono h)⟩

variable {D : Finset CapVarId} {R : Finset CapRow}

/-- A binding that changed something settles one pending pair for good. -/
theorem card_pending_lt {r : CapRow} (hid : id ∈ D) (hrow : row ∈ R)
    (hr : stripSelf id row = some r) (hmerge : merge (σ.binding id) r = some merged)
    (h : Widens ((σ.touch id).insertBinding id merged) τ) :
    (pending τ D R).card < (pending σ D R).card := by
  have hσ : ¬ Covered σ id row := fun hc => by
    rw [hc r hr] at hmerge
    cases hmerge
  have hτ : Covered τ id row := (covered_insertBinding hr (merge_eq_some hmerge).1).mono h
  refine Finset.card_lt_card
    ⟨pending_mono ((touch_insertBinding_grows hmerge).toWidens.trans h) D R, fun hsub => ?_⟩
  have hmem : (id, row) ∈ pending σ D R := by
    rw [pending, Finset.mem_filter]
    exact ⟨Finset.mk_mem_product hid hrow, hσ⟩
  have := hsub hmem
  rw [pending, Finset.mem_filter] at this
  exact this.2 hτ

/-- The variables and rows that a binding in `σ` can get to are in `D` and `R`. -/
structure Within (σ : CapEngine) (D : Finset CapVarId) (R : Finset CapRow) : Prop where
  slots : σ.slotCapVars ⊆ D
  deferred : ∀ v, ∀ r ∈ σ.deferredOf v, r ∈ R
  lambdas : ∀ v, ∀ r ∈ σ.lambdaStoresOf v, r ∈ R

theorem Within.mono (hw : Within σ D R) (h : Grows σ τ) : Within τ D R where
  slots := h.slots ▸ hw.slots
  deferred v r hr := hw.deferred v r (h.deferred v hr)
  lambdas v r hr := hw.lambdas v r (by rwa [lambdaStoresOf, h.lambdas] at hr)

theorem mem_targetSlots {target s : CapVarId} (hs : s ∈ σ.targetSlots target) :
    s ∈ σ.slotCapVars :=
  (Finset.mem_filter.mp (mem_ascending.mp hs)).2.2

/-- Two ways to continue a loop agree when they agree on every state the loop can be in. -/
theorem foldl_congr_of_grows {β : Type} {f g : CapEngine → β → CapEngine}
    (hf : ∀ σ b, Grows σ (f σ b)) {l : List β} (hfg : ∀ τ, Grows σ τ → ∀ b ∈ l, f τ b = g τ b) :
    l.foldl f σ = l.foldl g σ := by
  induction l generalizing σ with
  | nil => rfl
  | cons b l ih =>
    rw [List.foldl_cons, List.foldl_cons, ← hfg σ (Grows.refl σ) b List.mem_cons_self]
    exact ih fun τ hτ b' hb' => hfg τ ((hf σ b).trans hτ) b' (List.mem_cons_of_mem b hb')

theorem storeVia_congr {bind bind' : CapVarId → CapRow → CapEngine → CapEngine}
    (hbind : ∀ id row σ, Grows σ (bind id row σ))
    (h : ∀ τ, Grows σ τ → ∀ s ∈ σ.slotCapVars, bind s row τ = bind' s row τ) (target : CapVarId) :
    storeVia bind target σ row = storeVia bind' target σ row := by
  have hstep : ∀ σ slot, Grows σ (storeSlot bind row σ slot) := by
    intro σ slot
    rw [storeSlot]
    split
    · exact recordParamStore_grows σ slot row
    · exact hbind slot row σ
  refine foldl_congr_of_grows hstep fun τ hτ s hs => ?_
  rw [storeSlot, storeSlot, h τ hτ s (mem_targetSlots hs)]

/-- Fuel beyond the number of pending pairs makes no difference. -/
theorem bindFrom_eq_of_lt {n m : ℕ} (hnm : n ≤ m) (hw : Within σ D R) (hid : id ∈ D)
    (hrow : row ∈ R) (hn : (pending σ D R).card < n) :
    bindFrom n id row σ = bindFrom m id row σ := by
  induction n generalizing m id row σ with
  | zero => exact absurd hn (Nat.not_lt_zero _)
  | succ n ih =>
    obtain ⟨m, rfl⟩ : ∃ k, m = k + 1 := ⟨m - 1, by omega⟩
    rw [bindFrom, bindFrom]
    split
    · rfl
    · rename_i r hr
      split
      · rfl
      · rename_i merged hmerge
        have hgrow := touch_insertBinding_grows hmerge
        -- The binding settles one pending pair, so one unit of fuel less is enough from here on.
        have hless : ∀ τ, Grows ((σ.touch id).insertBinding id merged) τ →
            (pending τ D R).card < n := by
          intro τ hτ
          have := card_pending_lt hid hrow hr hmerge hτ.toWidens
          omega
        have hstore : ∀ τ, Grows ((σ.touch id).insertBinding id merged) τ → ∀ r' ∈ R,
            storeVia (bindFrom n) id τ r' = storeVia (bindFrom m) id τ r' := by
          intro τ hτ r' hr'
          have hwτ : Within τ D R := hw.mono (hgrow.trans hτ)
          refine storeVia_congr (bindFrom_grows n) (fun τ' hτ' s hs => ?_) id
          exact ih (by omega) (hwτ.mono hτ') (hwτ.slots hs) hr' (hless τ' (hτ.trans hτ'))
        have hdef : ∀ r' ∈ σ.deferredOf id, r' ∈ R := hw.deferred id
        have hlam : ∀ r' ∈ σ.lambdaStoresOf id, r' ∈ R := hw.lambdas id
        show List.foldl _ (List.foldl _ _ _) _ = List.foldl _ (List.foldl _ _ _) _
        rw [← foldl_congr_of_grows (storeVia_grows (bindFrom_grows n) id)
          fun τ hτ r' hr' => hstore τ hτ r' (hdef r' hr')]
        have hgrow' := Grows.foldl (storeVia_grows (bindFrom_grows n) id) (σ.deferredOf id)
          ((σ.touch id).insertBinding id merged)
        exact foldl_congr_of_grows (storeVia_grows (bindFrom_grows n) id)
          fun τ hτ r' hr' => hstore τ (hgrow'.trans hτ) r' (hlam r' hr')

theorem within_rowsInPlay (σ : CapEngine) (id : CapVarId) (row : CapRow) :
    Within σ (insert id σ.slotCapVars) (σ.rowsInPlay row).toFinset where
  slots := Finset.subset_insert _ _
  deferred v r hr := by
    rw [deferredOf] at hr
    cases hl : σ.deferredInputStores.lookup v with
    | none => simp [hl] at hr
    | some rows =>
      have hmem : r ∈ rows := by simpa [hl] using hr
      refine List.mem_toFinset.mpr (List.mem_cons_of_mem _ (List.mem_append_left _ ?_))
      exact List.mem_flatMap.mpr ⟨⟨v, rows⟩, AList.mem_lookup_iff.mp hl, hmem⟩
  lambdas v r hr := by
    rw [lambdaStoresOf] at hr
    cases hl : σ.lambdaInputStores.lookup v with
    | none => simp [hl] at hr
    | some rows =>
      have hmem : r ∈ rows := by simpa [hl] using hr
      refine List.mem_toFinset.mpr (List.mem_cons_of_mem _ (List.mem_append_right _ ?_))
      exact List.mem_flatMap.mpr ⟨⟨v, rows⟩, AList.mem_lookup_iff.mp hl, hmem⟩

theorem card_pending_lt_bindFuel (σ : CapEngine) (id : CapVarId) (row : CapRow) :
    (pending σ (insert id σ.slotCapVars) (σ.rowsInPlay row).toFinset).card <
      σ.bindFuel id row := by
  rw [bindFuel, Nat.lt_succ_iff]
  calc _ ≤ (insert id σ.slotCapVars ×ˢ (σ.rowsInPlay row).toFinset).card :=
        Finset.card_le_card (Finset.filter_subset _ _)
    _ = (insert id σ.slotCapVars).card * (σ.rowsInPlay row).toFinset.card :=
        Finset.card_product _ _
    _ ≤ _ := Nat.mul_le_mul_left _ (List.toFinset_card_le _)

/-- Any fuel that is enough gives the binding. -/
theorem bindFrom_eq_bindCapVar {n : ℕ} (hw : Within σ D R) (hid : id ∈ D) (hrow : row ∈ R)
    (hn : (pending σ D R).card < n) : bindFrom n id row σ = σ.bindCapVar id row := by
  rw [bindFrom_eq_of_lt (Nat.le_max_left n (σ.bindFuel id row)) hw hid hrow hn, bindCapVar]
  exact (bindFrom_eq_of_lt (Nat.le_max_right n (σ.bindFuel id row)) (within_rowsInPlay σ id row)
    (Finset.mem_insert_self _ _) (List.mem_toFinset.mpr List.mem_cons_self)
    (card_pending_lt_bindFuel σ id row)).symm

/-- The recursion of the source: a binding that changes something carries out the stores that
waited for the variable, and those of the lambda whose parameter it is. -/
theorem bindCapVar_eq (σ : CapEngine) (id : CapVarId) (row : CapRow) :
    σ.bindCapVar id row =
      match stripSelf id row with
      | none => σ.touch id
      | some row =>
        match merge (σ.binding id) row with
        | none => σ.touch id
        | some merged =>
          (σ.lambdaStoresOf id).foldl (fun τ r => τ.storeIntoInput id r)
            ((σ.deferredOf id).foldl (fun τ r => τ.storeIntoInput id r)
              ((σ.touch id).insertBinding id merged)) := by
  have hw := within_rowsInPlay σ id row
  have hid : id ∈ insert id σ.slotCapVars := Finset.mem_insert_self _ _
  have hrow : row ∈ (σ.rowsInPlay row).toFinset := List.mem_toFinset.mpr List.mem_cons_self
  have hfuel := card_pending_lt_bindFuel σ id row
  rw [bindCapVar]
  obtain ⟨n, hn⟩ : ∃ n, σ.bindFuel id row = n + 1 := ⟨_, rfl⟩
  rw [hn] at hfuel ⊢
  rw [bindFrom]
  cases hr : stripSelf id row with
  | none => rfl
  | some r =>
    cases hmerge : merge (σ.binding id) r with
    | none => simp only [hmerge]
    | some merged =>
      simp only [hmerge]
      have hgrow := touch_insertBinding_grows hmerge
      have hstore : ∀ τ, Grows ((σ.touch id).insertBinding id merged) τ →
          ∀ r' ∈ (σ.rowsInPlay row).toFinset,
            storeVia (bindFrom n) id τ r' = τ.storeIntoInput id r' := by
        intro τ hτ r' hr'
        have hwτ := hw.mono (hgrow.trans hτ)
        refine storeVia_congr (bindFrom_grows n) (fun τ' hτ' s hs => ?_) id
        refine bindFrom_eq_bindCapVar (hwτ.mono hτ') (hwτ.slots hs) hr' ?_
        have := card_pending_lt hid hrow hr hmerge (hτ.trans hτ').toWidens
        omega
      have hgrow' := Grows.foldl (storeVia_grows (bindFrom_grows n) id) (σ.deferredOf id)
        ((σ.touch id).insertBinding id merged)
      rw [foldl_congr_of_grows (storeVia_grows (bindFrom_grows n) id)
        fun τ hτ r' hr' => hstore τ (hgrow'.trans hτ) r' (hw.lambdas id r' hr')]
      rw [foldl_congr_of_grows (storeVia_grows (bindFrom_grows n) id)
        fun τ hτ r' hr' => hstore τ hτ r' (hw.deferred id r' hr')]

theorem covered_bindCapVar (σ : CapEngine) (id : CapVarId) (row : CapRow) :
    Covered (σ.bindCapVar id row) id row := by
  by_cases hc : Covered σ id row
  · exact hc.mono (bindCapVar_grows σ id row).toWidens
  · rw [Covered, not_forall] at hc
    obtain ⟨r, hc⟩ := hc
    rw [Classical.not_imp] at hc
    obtain ⟨hr, hne⟩ := hc
    obtain ⟨merged, hmerge⟩ := Option.ne_none_iff_exists'.mp hne
    have hr : stripSelf id row = some r := hr
    rw [bindCapVar_eq, hr]
    simp only [hmerge]
    have hcov : Covered ((σ.touch id).insertBinding id merged) id row :=
      covered_insertBinding hr (merge_eq_some hmerge).1
    refine hcov.mono ?_
    exact (Widens.foldl (fun τ r => (storeIntoInput_grows τ id r).toWidens) _ _).trans
      (Widens.foldl (fun τ r => (storeIntoInput_grows τ id r).toWidens) _ _)

/-- A row that is bound to a variable is in the binding, up to the variable itself. -/
theorem le_bindCapVar (σ : CapEngine) (id : CapVarId) (row : CapRow) :
    row ≤ ((σ.bindCapVar id row).binding id).getD ⊥ ⊔ .var id := by
  have hcov := covered_bindCapVar σ id row
  cases row with
  | unknown =>
    obtain ⟨b, hb, hle⟩ := merge_eq_none.mp (hcov .unknown rfl)
    rw [hb]
    exact hle.trans le_sup_left
  | resolved c vs =>
    by_cases hid : id ∈ vs
    · by_cases hself : c = ∅ ∧ vs.erase id = ∅
      · obtain ⟨rfl, hvs⟩ := hself
        refine le_trans ?_ le_sup_right
        refine CapRow.resolved_le_resolved.mpr ⟨Finset.Subset.refl _, ?_⟩
        rw [← Finset.insert_erase hid, hvs]
        exact Finset.Subset.refl _
      · obtain ⟨b, hb, hle⟩ := merge_eq_none.mp
          (hcov (.resolved c (vs.erase id)) (by simp [stripSelf, hid, hself]))
        rw [hb]
        refine le_trans ?_ (sup_le_sup_right hle _)
        refine CapRow.resolved_le_resolved.mpr ⟨Finset.subset_union_left, ?_⟩
        intro v hv
        by_cases hvid : v = id
        · exact Finset.mem_union_right _ (Finset.mem_singleton.mpr hvid)
        · exact Finset.mem_union_left _ (Finset.mem_erase.mpr ⟨hvid, hv⟩)
    · obtain ⟨b, hb, hle⟩ := merge_eq_none.mp
        (hcov (.resolved c vs) (by simp [stripSelf, hid]))
      rw [hb]
      exact hle.trans le_sup_left

end Kryos.Types.CapEngine

import Mathlib.Data.Finset.Powerset
import Mathlib.Data.Fintype.Powerset
import Mathlib.Data.Multiset.Lattice
import Kryos.Types.CapRefs

/-!
# How many rounds the references need

Without a limit on their number the rounds of `completeReferences` come to a stop: they bind
variables that the state mentions to rows over the variables that the state mentions, and there
are finitely many of both. `roundsNeeded` is the number of rounds it takes.
-/

namespace Kryos.Types.CapEngine

variable {σ τ : CapEngine} {V : Finset CapVarId}

/-- One more round changes no entry of the substitution. -/
def FixedPoint (refs : List Instantiation) (σ : CapEngine) : Prop :=
  ∀ v, (completeRound refs σ).binding v = σ.binding v

theorem fixedPoint_iff (refs : List Instantiation) (σ : CapEngine) :
    FixedPoint refs σ ↔ (completeRound refs σ).capEpoch = σ.capEpoch := by
  have hw := completeRound_widens refs σ
  constructor
  · intro h
    by_contra hne
    obtain ⟨v, hv⟩ := hw.changed hne
    exact hv (h v)
  · intro h v
    rw [binding, hw.same h, binding]

theorem FixedPoint.completeRound {refs : List Instantiation} (h : FixedPoint refs σ) :
    FixedPoint refs (completeRound refs σ) := by
  rw [fixedPoint_iff] at h ⊢
  exact completeRound_inert refs ((completeRound_widens refs σ).alike h) h

/-! ### The rounds stop -/

/-- Every variable that a binding can mention or reach is in `V`. -/
structure Over (V : Finset CapVarId) (σ : CapEngine) : Prop where
  slots : σ.slotCapVars ⊆ V
  bindings : ∀ v r, σ.binding v = some r → r.varIds ⊆ V
  deferred : ∀ v, ∀ r ∈ σ.deferredOf v, r.varIds ⊆ V
  lambdas : ∀ v, ∀ r ∈ σ.lambdaStoresOf v, r.varIds ⊆ V
  effects : ∀ own, ∀ e ∈ (σ.storeEffects.lookup own).getD [], e.1 ∈ V ∧ e.2.varIds ⊆ V

/-- The rows over `V`. -/
def rowsOver (V : Finset CapVarId) : Finset CapRow :=
  insert .unknown ((Finset.univ ×ˢ V.powerset).image fun p => .resolved p.1 p.2)

variable {row : CapRow}

theorem mem_rowsOver (h : row.varIds ⊆ V) : row ∈ rowsOver V := by
  cases row with
  | unknown => exact Finset.mem_insert_self _ _
  | resolved c vs =>
    refine Finset.mem_insert_of_mem (Finset.mem_image.mpr ⟨(c, vs), ?_, rfl⟩)
    exact Finset.mk_mem_product (Finset.mem_univ c) (Finset.mem_powerset.mpr h)

theorem stripSelf_varIds {id : CapVarId} {r : CapRow} (h : stripSelf id row = some r) :
    r.varIds ⊆ row.varIds := by
  cases row with
  | unknown =>
    obtain rfl : CapRow.unknown = r := by simpa [stripSelf] using h
    exact Finset.Subset.refl _
  | resolved c vs =>
    rw [stripSelf] at h
    split at h
    · split at h
      · cases h
      · obtain rfl : CapRow.resolved c (vs.erase id) = r := by simpa using h
        exact Finset.erase_subset _ _
    · obtain rfl : CapRow.resolved c vs = r := by simpa using h
      exact Finset.Subset.refl _

theorem varIds_sup_subset {r r' : CapRow} (h : r.varIds ⊆ V) (h' : r'.varIds ⊆ V) :
    (r ⊔ r').varIds ⊆ V := by
  cases r <;> cases r'
  · exact Finset.union_subset h h'
  all_goals exact Finset.empty_subset _

theorem merge_varIds {existing : Option CapRow} {merged : CapRow}
    (h : merge existing row = some merged) (he : ∀ r, existing = some r → r.varIds ⊆ V)
    (hr : row.varIds ⊆ V) : merged.varIds ⊆ V := by
  cases existing with
  | none =>
    obtain rfl : row = merged := by simpa [merge] using h
    exact hr
  | some r =>
    rw [merge] at h
    split at h
    · cases h
    · obtain rfl : r ⊔ row = merged := by simpa using h
      exact varIds_sup_subset (he r rfl) hr

/-- A step keeps the variables within `V`, and if it changes a binding then it settles a pair of a
variable and a row over `V`. -/
structure Settles (V : Finset CapVarId) (σ σ' : CapEngine) : Prop where
  within : Over V σ'
  widens : Widens σ σ'
  fewer : σ'.capEpoch ≠ σ.capEpoch →
    (pending σ' V (rowsOver V)).card < (pending σ V (rowsOver V)).card

theorem Settles.refl (h : Over V σ) : Settles V σ σ :=
  ⟨h, Widens.refl σ, fun hne => absurd rfl hne⟩

theorem Settles.trans {σ₁ σ₂ σ₃ : CapEngine} (h : Settles V σ₁ σ₂) (h' : Settles V σ₂ σ₃) :
    Settles V σ₁ σ₃ where
  within := h'.within
  widens := h.widens.trans h'.widens
  fewer hne := by
    have h₁ := Finset.card_le_card (pending_mono h.widens V (rowsOver V))
    have h₂ := Finset.card_le_card (pending_mono h'.widens V (rowsOver V))
    by_cases heq : σ₂.capEpoch = σ₁.capEpoch
    · have := h'.fewer (by omega)
      omega
    · have := h.fewer heq
      omega

theorem Settles.foldl {β : Type} {f : CapEngine → β → CapEngine} {l : List β}
    (hf : ∀ b ∈ l, ∀ σ, Over V σ → Settles V σ (f σ b)) (h : Over V σ) :
    Settles V σ (l.foldl f σ) := by
  induction l generalizing σ with
  | nil => exact Settles.refl h
  | cons b l ih =>
    have hb := hf b List.mem_cons_self σ h
    exact hb.trans (ih (fun b' hb' => hf b' (List.mem_cons_of_mem b hb')) hb.within)

theorem Over.touch (h : Over V σ) (id : CapVarId) : Over V (σ.touch id) := by
  rw [CapEngine.touch]
  split
  · exact ⟨h.slots, h.bindings, h.deferred, h.lambdas, h.effects⟩
  · exact h

theorem Over.insertBinding (h : Over V σ) {id : CapVarId} {merged : CapRow}
    (hm : merged.varIds ⊆ V) : Over V (σ.insertBinding id merged) where
  slots := h.slots
  bindings v r hr := by
    rw [insertBinding_binding] at hr
    split at hr
    · obtain rfl : merged = r := Option.some.inj hr
      exact hm
    · exact h.bindings v r hr
  deferred v r hr := by
    rw [deferredOf, CapEngine.insertBinding] at hr
    by_cases hv : v = id
    · rw [hv, AList.lookup_erase] at hr
      cases hr
    · rw [AList.lookup_erase_ne hv] at hr
      exact h.deferred v r hr
  lambdas := h.lambdas
  effects := h.effects

theorem Over.storeVia {bind : CapVarId → CapRow → CapEngine → CapEngine} {row : CapRow}
    (hbind : ∀ s σ, Over V σ → Over V (bind s row σ)) (h : Over V σ) (target : CapVarId) :
    Over V (storeVia bind target σ row) := by
  refine List.foldlRecOn (motive := Over V) _ _ h fun ρ hρ slot _ => ?_
  rw [storeSlot]
  split
  · exact ⟨hρ.slots, hρ.bindings, hρ.deferred, hρ.lambdas, hρ.effects⟩
  · exact hbind slot ρ hρ

theorem Over.bindFrom (n : ℕ) {id : CapVarId} {row : CapRow} (h : Over V σ)
    (hrow : row.varIds ⊆ V) : Over V (bindFrom n id row σ) := by
  induction n generalizing id row σ with
  | zero => exact h
  | succ n ih =>
    rw [CapEngine.bindFrom]
    split
    · exact h.touch id
    · rename_i r hr
      split
      · exact h.touch id
      · rename_i merged hmerge
        have hm := merge_varIds hmerge (h.bindings id) ((stripSelf_varIds hr).trans hrow)
        have hfold : ∀ (l : List CapRow) (τ : CapEngine), (∀ r ∈ l, r.varIds ⊆ V) → Over V τ →
            Over V (l.foldl (CapEngine.storeVia (CapEngine.bindFrom n) id) τ) :=
          fun l τ hl hτ => List.foldlRecOn (motive := Over V) l _ hτ fun ρ hρ r' hr' =>
            hρ.storeVia (fun _ _ hρ' => ih hρ' (hl r' hr')) id
        exact hfold _ _ (h.lambdas id) (hfold _ _ (h.deferred id) ((h.touch id).insertBinding hm))

/-- Binding a variable of `V` to a row over `V`. -/
theorem bindCapVar_settles (h : Over V σ) {id : CapVarId} (hid : id ∈ V) (hrow : row.varIds ⊆ V) :
    Settles V σ (σ.bindCapVar id row) where
  within := h.bindFrom _ hrow
  widens := (bindCapVar_grows σ id row).toWidens
  fewer hne := by
    have hσ : ¬ Covered σ id row := fun hc => hne ((bindCapVar_epoch_iff σ id row).mpr hc)
    refine Finset.card_lt_card
      ⟨pending_mono (bindCapVar_grows σ id row).toWidens V _, fun hsub => ?_⟩
    have hmem : (id, row) ∈ pending σ V (rowsOver V) :=
      Finset.mem_filter.mpr ⟨Finset.mk_mem_product hid (mem_rowsOver hrow), hσ⟩
    exact (Finset.mem_filter.mp (hsub hmem)).2 (covered_bindCapVar σ id row)

theorem storeIntoInput_settles (h : Over V σ) (target : CapVarId) (hrow : row.varIds ⊆ V) :
    Settles V σ (σ.storeIntoInput target row) := by
  refine Settles.foldl (fun slot hslot ρ hρ => ?_) h
  rw [storeSlot]
  split
  · exact ⟨⟨hρ.slots, hρ.bindings, hρ.deferred, hρ.lambdas, hρ.effects⟩,
      (recordParamStore_grows ρ slot row).toWidens, fun hne => absurd rfl hne⟩
  · exact bindCapVar_settles hρ (h.slots (mem_targetSlots hslot)) hrow

theorem Over.reachable (h : Over V σ) {stop start : Finset CapVarId} (hs : start ⊆ V) :
    σ.reachable stop start ⊆ V := by
  refine Reach.levels_induct (P := (· ∈ V)) ?_ hs (by simp)
  intro v w _ hw
  split at hw
  · cases hw
  · rw [succs] at hw
    split at hw
    · rename_i row hrow
      exact h.bindings v row hrow hw
    · cases hw

variable {map : VarMap CapVarId}

theorem Over.instantiateRow (h : Over V σ) (hrow : row.varIds ⊆ V)
    (hmap : ∀ v c, map.lookup v = some c → c ∈ V) : (σ.instantiateRow row map).varIds ⊆ V := by
  have hres : (σ.resolveCapRowKeepingSlots row).varIds ⊆ V := by
    cases row with
    | unknown => exact Finset.empty_subset _
    | resolved c vs =>
      rw [resolveCapRowKeepingSlots]
      split
      · exact hrow
      · rw [CapRow.unionBits_eq]
        refine varIds_sup_subset ?_ (Finset.empty_subset _)
        rw [collect]
        split
        · exact Finset.empty_subset _
        · exact (Finset.filter_subset _ _).trans (h.reachable hrow)
  intro w hw
  obtain ⟨v, hv, rfl⟩ := Finset.mem_image.mp hw
  cases hl : map.lookup v with
  | none => exact hres hv
  | some c => exact hmap v c hl

theorem replayEffect_settles (h : Over V σ) (hmap : ∀ v c, map.lookup v = some c → c ∈ V)
    {effect : CapVarId × CapRow} (he : effect.1 ∈ V ∧ effect.2.varIds ⊆ V) :
    Settles V σ (replayEffect map σ effect) := by
  have hinst := h.instantiateRow he.2 hmap
  rw [replayEffect]
  split
  · cases hl : map.lookup effect.1 with
    | none => exact Settles.refl h
    | some target =>
      simp only []
      split
      · exact storeIntoInput_settles h target hinst
      · refine ⟨⟨h.slots, h.bindings, fun v r hr => ?_, h.lambdas, h.effects⟩,
          .of_eq rfl rfl rfl (fun _ => rfl) rfl rfl rfl rfl, fun hne => absurd rfl hne⟩
        rw [deferredOf] at hr
        by_cases hv : v = target
        · rw [hv, AList.lookup_insert, Option.getD_some, List.mem_append,
            List.mem_singleton] at hr
          rcases hr with hr | rfl
          · exact h.deferred target r hr
          · exact hinst
        · rw [AList.lookup_insert_ne hv] at hr
          exact h.deferred v r hr
  · exact bindCapVar_settles h he.1 hinst

theorem completeCopy_settles (h : Over V σ) (hmap : ∀ v c, map.lookup v = some c → c ∈ V)
    {var copy : CapVarId} (hvar : var ∈ V) (hcopy : copy ∈ V) :
    Settles V σ (completeCopy map σ var copy) := by
  rw [completeCopy]
  split
  · have hv : (CapRow.var var).varIds ⊆ V := Finset.singleton_subset_iff.mpr hvar
    exact bindCapVar_settles h hcopy (h.instantiateRow hv hmap)
  · exact Settles.refl h

/-- The variables of a reference are in `V`. -/
structure RefOver (V : Finset CapVarId) (r : Instantiation) : Prop where
  callee : r.callee ∈ V
  map : ∀ v c, r.map.lookup v = some c → v ∈ V ∧ c ∈ V
  ownCopy : ∀ c, r.ownCopy = some c → c ∈ V

theorem completeReference_settles {r : Instantiation} (hr : RefOver V r) (h : Over V σ) :
    Settles V σ (completeReference σ r) := by
  have hmap : ∀ v c, r.map.lookup v = some c → c ∈ V := fun v c hl => (hr.map v c hl).2
  have hreplay : Settles V σ (σ.replayStoreEffects r.callee r.map) :=
    Settles.foldl (fun e he ρ hρ => replayEffect_settles hρ hmap (h.effects r.callee e he)) h
  have hcopies : ∀ ρ, Over V ρ → Settles V ρ (completeCopies r.map ρ) := by
    intro ρ hρ
    refine Settles.foldl (fun e he ρ' hρ' => ?_) hρ
    have hl : r.map.lookup e.1 = some e.2 := AList.mem_lookup_iff.mpr he
    exact completeCopy_settles hρ' hmap (hr.map _ _ hl).1 (hr.map _ _ hl).2
  have hown : ∀ ρ, Over V ρ → Settles V ρ (completeOwnCopy r ρ) := by
    intro ρ hρ
    rw [completeOwnCopy]
    split
    · exact Settles.refl hρ
    · rename_i c hc
      exact completeCopy_settles hρ hmap hr.callee (hr.ownCopy c hc)
  have h₂ := hcopies _ hreplay.within
  exact hreplay.trans (h₂.trans (hown _ h₂.within))

theorem completeRound_settles {refs : List Instantiation} (hrefs : ∀ r ∈ refs, RefOver V r)
    (h : Over V σ) : Settles V σ (completeRound refs σ) :=
  Settles.foldl (fun r hr _ hρ => completeReference_settles (hrefs r hr) hρ) h

theorem mem_of_lookup_getD {β : Type} {m : VarMap (List β)} {v : CapVarId} {b : β}
    (h : b ∈ (m.lookup v).getD []) : ∃ l, (⟨v, l⟩ : (_ : CapVarId) × List β) ∈ m.entries ∧ b ∈ l := by
  cases hl : m.lookup v with
  | none => simp [hl] at h
  | some l => exact ⟨l, AList.mem_lookup_iff.mp hl, by simpa [hl] using h⟩

/-- All the variables of the elements of a list. -/
def varsOf {β : Type} (f : β → Finset CapVarId) (l : List β) : Finset CapVarId :=
  l.foldr (fun b vs => f b ∪ vs) ∅

theorem subset_varsOf {β : Type} {f : β → Finset CapVarId} {l : List β} {b : β} (hb : b ∈ l) :
    f b ⊆ varsOf f l := by
  induction l with
  | nil => cases hb
  | cons c l ih =>
    rw [varsOf, List.foldr_cons]
    rcases List.mem_cons.mp hb with rfl | hb
    · exact Finset.subset_union_left
    · exact (ih hb).trans Finset.subset_union_right

/-- The variables of the rows that are stored under some variable. -/
def storedVars (m : VarMap (List CapRow)) : Finset CapVarId :=
  varsOf (fun e => varsOf CapRow.varIds e.2) m.entries

def effectVars (effects : List (CapVarId × CapRow)) : Finset CapVarId :=
  varsOf (fun e => insert e.1 e.2.varIds) effects

/-- The variables that a state mentions. -/
def stateVars (σ : CapEngine) : Finset CapVarId :=
  σ.slotCapVars ∪ (varsOf (fun e => e.2.varIds) σ.capSubstitutions.entries ∪
    (storedVars σ.deferredInputStores ∪ (storedVars σ.lambdaInputStores ∪
      varsOf (fun e => effectVars e.2) σ.storeEffects.entries)))

def entryVars (e : (_ : CapVarId) × CapVarId) : Finset CapVarId := {e.1, e.2}

def refVars (r : Instantiation) : Finset CapVarId :=
  insert r.callee (r.ownCopy.elim ∅ singleton ∪ varsOf entryVars r.map.entries)

theorem subset_storedVars {m : VarMap (List CapRow)} {v : CapVarId} {r : CapRow}
    (h : r ∈ (m.lookup v).getD []) : r.varIds ⊆ storedVars m := by
  obtain ⟨rows, hrows, hmem⟩ := mem_of_lookup_getD h
  have hsub : varsOf CapRow.varIds rows ⊆ storedVars m :=
    subset_varsOf (f := fun e => varsOf CapRow.varIds e.2) hrows
  exact (subset_varsOf hmem).trans hsub

theorem over_stateVars (hV : stateVars σ ⊆ V) : Over V σ := by
  rw [stateVars, Finset.union_subset_iff, Finset.union_subset_iff, Finset.union_subset_iff,
    Finset.union_subset_iff] at hV
  obtain ⟨hslots, hbound, hdeferred, hlambdas, heffects⟩ := hV
  refine ⟨hslots, ?_, ?_, ?_, ?_⟩
  · intro v r hr
    have hmem : (⟨v, r⟩ : (_ : CapVarId) × CapRow) ∈ σ.capSubstitutions.entries :=
      AList.mem_lookup_iff.mp hr
    exact (subset_varsOf (f := fun e => e.2.varIds) hmem).trans hbound
  · exact fun v r hr => (subset_storedVars hr).trans hdeferred
  · exact fun v r hr => (subset_storedVars hr).trans hlambdas
  · intro own e he
    obtain ⟨effects, hmem, he⟩ := mem_of_lookup_getD he
    have hsub : insert e.1 e.2.varIds ⊆ V :=
      ((subset_varsOf (f := fun e => insert e.1 e.2.varIds) he).trans
        (subset_varsOf (f := fun e => effectVars e.2) hmem)).trans heffects
    exact ⟨hsub (Finset.mem_insert_self _ _), (Finset.subset_insert _ _).trans hsub⟩

theorem refOver_refVars {r : Instantiation} (hV : refVars r ⊆ V) : RefOver V r := by
  rw [refVars, Finset.insert_subset_iff, Finset.union_subset_iff] at hV
  obtain ⟨hcallee, hown, hcopies⟩ := hV
  refine ⟨hcallee, fun v c hl => ?_, fun c hc => ?_⟩
  · have hmem : (⟨v, c⟩ : (_ : CapVarId) × CapVarId) ∈ r.map.entries := AList.mem_lookup_iff.mp hl
    have hsub : entryVars ⟨v, c⟩ ⊆ V := (subset_varsOf hmem).trans hcopies
    exact ⟨hsub (Finset.mem_insert_self _ _),
      hsub (Finset.mem_insert_of_mem (Finset.mem_singleton_self _))⟩
  · rw [hc] at hown
    exact Finset.singleton_subset_iff.mp hown

/-- Finitely many variables are enough for a state and a list of references. -/
theorem exists_over (refs : List Instantiation) (σ : CapEngine) :
    ∃ V, Over V σ ∧ ∀ r ∈ refs, RefOver V r := by
  refine ⟨stateVars σ ∪ varsOf refVars refs, over_stateVars Finset.subset_union_left, ?_⟩
  intro r hr
  exact refOver_refVars ((subset_varsOf hr).trans Finset.subset_union_right)

/-- Without a limit the rounds come to a stop. -/
theorem exists_fixedPoint (refs : List Instantiation) (σ : CapEngine) :
    ∃ n, FixedPoint refs ((completeRound refs)^[n] σ) := by
  obtain ⟨V, hσ, hrefs⟩ := exists_over refs σ
  -- By induction on the number of pairs that a binding can still change.
  generalize hk : (pending σ V (rowsOver V)).card = k
  induction k using Nat.strong_induction_on generalizing σ with
  | _ k ih =>
    have hs := completeRound_settles hrefs hσ
    by_cases hidle : (completeRound refs σ).capEpoch = σ.capEpoch
    · exact ⟨0, (fixedPoint_iff refs σ).mpr hidle⟩
    · obtain ⟨n, hn⟩ := ih _ (hk ▸ hs.fewer hidle) (completeRound refs σ) hs.within rfl
      exact ⟨n + 1, hn⟩

/-- The number of rounds after which one more changes nothing. -/
noncomputable def roundsNeeded (refs : List Instantiation) (σ : CapEngine) : ℕ :=
  open Classical in Nat.find (exists_fixedPoint refs σ)

/-- The substitution that the references complete to, when nothing limits the number of rounds. -/
noncomputable def leastCompletion (refs : List Instantiation) (σ : CapEngine) : CapEngine :=
  (completeRound refs)^[roundsNeeded refs σ] σ

theorem fixedPoint_leastCompletion (refs : List Instantiation) (σ : CapEngine) :
    FixedPoint refs (leastCompletion refs σ) := by
  classical
  exact Nat.find_spec (exists_fixedPoint refs σ)

theorem roundsNeeded_le_iff {refs : List Instantiation} {k : ℕ} :
    roundsNeeded refs σ ≤ k ↔ ∃ n ≤ k, FixedPoint refs ((completeRound refs)^[n] σ) := by
  classical
  exact Nat.find_le_iff (exists_fixedPoint refs σ) k

theorem fixedPoint_completeRounds (refs : List Instantiation) (k : ℕ) (σ : CapEngine) :
    FixedPoint refs (completeRounds refs k σ) ↔
      ∃ n ≤ k, FixedPoint refs ((completeRound refs)^[n] σ) := by
  induction k generalizing σ with
  | zero =>
    refine ⟨fun h => ⟨0, Nat.le_refl 0, h⟩, fun ⟨n, hn, h⟩ => ?_⟩
    obtain rfl : n = 0 := by omega
    exact h
  | succ k ih =>
    rw [completeRounds]
    by_cases hidle : (completeRound refs σ).capEpoch = σ.capEpoch
    · rw [if_pos hidle]
      have hfix := (fixedPoint_iff refs σ).mpr hidle
      exact iff_of_true hfix.completeRound ⟨0, Nat.zero_le _, hfix⟩
    · rw [if_neg hidle, ih]
      constructor
      · rintro ⟨n, hn, h⟩
        exact ⟨n + 1, Nat.succ_le_succ hn, h⟩
      · rintro ⟨n, hn, h⟩
        cases n with
        | zero => exact absurd ((fixedPoint_iff refs σ).mp h) hidle
        | succ n => exact ⟨n, Nat.le_of_succ_le_succ hn, h⟩

/-- What the engine holds after the body of a function with seventeen function parameters that
either returns its first parameter or calls itself with the parameters moved up by one. The
parameters have the rows `0` to `16` and the result has the row `34`; the call made the copies `17`
to `33` and `35` of them, and has the argument rows bound already. -/
def rotation : CapEngine :=
  let bindings : List ((_ : CapVarId) × CapRow) :=
    ⟨34, .resolved ∅ {0, 35}⟩ :: (List.range 17).map fun i => ⟨17 + i, .var (min (i + 1) 16)⟩
  { new with nextCapVar := 37, capSubstitutions := bindings.toAList }

def rotationRefs : List Instantiation :=
  let copies : List ((_ : CapVarId) × CapVarId) :=
    ⟨34, 35⟩ :: (List.range 17).map fun i => ⟨i, 17 + i⟩
  [{ owner := some 36, callee := 36, map := copies.toAList, span := ⟨0, 0, 0⟩, ownCopy := none }]

end Kryos.Types.CapEngine

import Kryos.Types.CapWiden

/-!
# Rows that keep a reference to global storage

A row that is copied into the type of a reference is resolved up to the global slots: those stay in
the row, so that the copy learns of what is stored later. Resolving such a row later is resolving
the row that it was made from, as long as only the bindings of global slots have changed
(`resolveCapRow_keepingSlots`). The graph is cut at the slots, so a variable may come to lie on a
cycle afterwards that the copy knows nothing of; but then the cycle passes a slot that the copy
keeps, and the slot leads back to the variable.

A binding of a global slot can carry out stores that waited for it, and those may widen storage
that is not global. The copy has that storage resolved already and misses the store.
-/

namespace Kryos.Types.CapEngine

open Relation CapRow

variable {σ τ : CapEngine}

/-! ### The walk that stops at global slots -/

/-- The variables that the walk goes on to. -/
def keepNext (σ : CapEngine) (v : CapVarId) : List CapVarId :=
  if v ∈ σ.globalSlotCapVars then [] else (σ.succList v).reverse

/-- One variable of the walk. An unknown row ends it; here the walk goes on, without a result. -/
def keepVisit (σ : CapEngine) : Option Walk → CapVarId → Option Walk
  | none, _ => none
  | some walk, cur =>
    let walk := { walk with visited := walk.visited ++ [cur] }
    if cur ∈ σ.globalSlotCapVars then some { walk with opened := walk.opened ++ [cur] }
    else
      match σ.binding cur with
      | none => some { walk with opened := walk.opened ++ [cur] }
      | some .unknown => none
      | some (.resolved concrete _) => some { walk with bits := walk.bits ∪ concrete }

def keepFuel (σ : CapEngine) (vars : Finset CapVarId) : ℕ :=
  (vars ∪ σ.graphVars).card * (σ.graphVars.card + 1) + vars.card

/-- The walk from `vars`, or nothing if it meets an unknown row. -/
def keepWalk (σ : CapEngine) (concrete : CapBits) (vars : Finset CapVarId) : Option Walk :=
  (Worklist.loop id σ.keepNext σ.keepVisit (σ.keepFuel vars) (ascending vars).reverse []
    (some ⟨concrete, [], []⟩)).join

/-- The row that the walk answers, with the variables on a cycle that are no global slots. -/
def keepWalkRow (σ : CapEngine) : CapRow → CapRow
  | .unknown => .unknown
  | .resolved concrete vars =>
    if vars = ∅ then .resolved concrete vars
    else
      match σ.keepWalk concrete vars with
      | none => .unknown
      | some walk => walk.row (σ.capCycleNodes \ σ.globalSlotCapVars)

/-- The variables that can be reached without going on from a variable of `stop`. -/
theorem mem_reachable_avoiding {stop start : Finset CapVarId} {w : CapVarId} :
    w ∈ σ.reachable stop start ↔ ∃ v ∈ start, ReflTransGen (σ.Avoiding stop) v w := by
  have hdom : ∀ v, v ∉ σ.capSubstitutions.keys.toFinset →
      (if v ∈ stop then ∅ else σ.succs v) = ∅ := by
    intro v hv
    rw [succs_eq_empty fun hk => hv (List.mem_toFinset.mpr hk), ite_self]
  have hedge : (fun a b => b ∈ if a ∈ stop then ∅ else σ.succs a) = σ.Avoiding stop := by
    funext a b
    by_cases ha : a ∈ stop
    · simp [Avoiding, ha]
    · simp [Avoiding, ha, Edge]
  rw [reachable, Reach.mem_reach_iff hdom (List.toFinset_card_le _), hedge]

theorem foldl_keepVisit_none (l : List CapVarId) : l.foldl σ.keepVisit none = none := by
  induction l with
  | nil => rfl
  | cons v l ih => exact ih

/-- What the walk over a list of variables collects. -/
theorem foldl_keepVisit (l : List CapVarId) (walk : Walk) :
    l.foldl σ.keepVisit (some walk) =
      if ∃ v ∈ l, v ∉ σ.globalSlotCapVars ∧ σ.binding v = some .unknown then none
      else some ⟨walk.bits ∪ (l.toFinset \ σ.globalSlotCapVars).sup σ.ownBits,
        walk.opened ++ l.filter fun v => v ∈ σ.globalSlotCapVars ∨ !σ.isBound v,
        walk.visited ++ l⟩ := by
  induction l generalizing walk with
  | nil => simp
  | cons v l ih =>
    rw [List.foldl_cons, keepVisit]
    by_cases hslot : v ∈ σ.globalSlotCapVars
    · simp [ih, hslot, Finset.insert_sdiff_of_mem]
    · cases hb : σ.binding v with
      | none =>
        simp [ih, hb, hslot, ownBits, isBound, CapRow.empty, CapRow.closed, CapRow.concreteBits,
          Finset.insert_sdiff_of_notMem]
      | some row =>
        cases row with
        | unknown => simp [hb, hslot, foldl_keepVisit_none]
        | resolved c vs =>
          simp [ih, hb, hslot, ownBits, isBound, CapRow.concreteBits, Finset.union_assoc,
            Finset.insert_sdiff_of_notMem]

/-- The walk visits the variables that can be reached. -/
theorem exists_keepWalk_eq (σ : CapEngine) (concrete : CapBits) (vars : Finset CapVarId) :
    ∃ visited : List CapVarId, visited.toFinset = σ.reachable σ.globalSlotCapVars vars ∧
      σ.keepWalk concrete vars = visited.foldl σ.keepVisit (some ⟨concrete, [], []⟩) := by
  have hnext : ∀ a b, b ∈ σ.keepNext a ↔ σ.Avoiding σ.globalSlotCapVars a b := by
    intro a b
    by_cases ha : a ∈ σ.globalSlotCapVars
    · simp [keepNext, Avoiding, ha]
    · rw [keepNext, if_neg ha, List.mem_reverse, mem_succList]
      exact (and_iff_left ha).symm
  have hmem : ∀ a, a ∈ (ascending vars).reverse ↔ a ∈ vars := fun a =>
    List.mem_reverse.trans mem_ascending
  have hwidth : ∀ a ∈ vars ∪ σ.graphVars, (σ.keepNext a).length ≤ σ.graphVars.card := by
    intro a _
    rw [keepNext]
    split
    · exact Nat.zero_le _
    · have hnodup : (σ.succList a).Nodup := (List.nodup_range).filter _
      rw [List.length_reverse, ← List.toFinset_card_of_nodup hnodup]
      exact Finset.card_le_card fun w hw =>
        succs_subset_graphVars a (mem_succList.mp (List.mem_toFinset.mp hw))
  obtain ⟨out, hout⟩ : ∃ out, Worklist.loop id σ.keepNext σ.keepVisit (σ.keepFuel vars)
      (ascending vars).reverse [] (some ⟨concrete, [], []⟩) = some out := by
    refine Worklist.loop_isSome (P := (· ∈ vars ∪ σ.graphVars)) (fun _ ha => ha) hwidth
      (fun a _ b hb => ?_) (fun a ha => ?_) ?_
    · exact Finset.mem_union_right _ (succs_subset_graphVars a ((hnext a b).mp hb).1)
    · exact Finset.mem_union_left _ ((hmem a).mp ha)
    · have hnodup : (ascending vars).Nodup := (List.nodup_range).filter _
      have hlength : (ascending vars).reverse.length = vars.card := by
        rw [List.length_reverse, ← List.toFinset_card_of_nodup hnodup]
        exact congrArg Finset.card (Finset.ext fun a => List.mem_toFinset.trans mem_ascending)
      rw [hlength, keepFuel]
      exact Nat.add_le_add_right (Nat.mul_le_mul_right _ (Finset.card_filter_le _ _)) _
  obtain ⟨visited, hvisited, hreach, hwork, hclosed⟩ := Worklist.loop_spec hout
  simp only [List.not_mem_nil, false_or, id_eq, exists_eq_right, hmem] at hreach hwork hclosed
  have hedge : (fun a b => b ∈ σ.keepNext a) = σ.Avoiding σ.globalSlotCapVars := by
    funext a b
    exact propext (hnext a b)
  rw [hedge] at hreach
  refine ⟨visited, ?_, by rw [keepWalk, hout, Option.join_some, hvisited]⟩
  ext w
  rw [List.mem_toFinset, mem_reachable_avoiding]
  refine ⟨hreach w, ?_⟩
  rintro ⟨v, hv, hw⟩
  induction hw with
  | refl => exact hwork v hv
  | tail _ hstep ih => exact hclosed _ ih _ ((hnext _ _).mpr hstep)

/-- The walk answers what `resolveCapRowKeepingSlots` says. -/
theorem keepWalkRow_eq (σ : CapEngine) (row : CapRow) :
    σ.keepWalkRow row = σ.resolveCapRowKeepingSlots row := by
  cases row with
  | unknown => rfl
  | resolved concrete vars =>
    rw [keepWalkRow, resolveCapRowKeepingSlots]
    by_cases hvars : vars = ∅
    · rw [if_pos hvars, if_pos hvars]
    rw [if_neg hvars, if_neg hvars]
    obtain ⟨visited, hset, hwalk⟩ := σ.exists_keepWalk_eq concrete vars
    have hmem : ∀ u, u ∈ visited ↔ u ∈ σ.reachable σ.globalSlotCapVars vars := fun u => by
      rw [← hset, List.mem_toFinset]
    simp only [foldl_keepVisit, hmem, hset, List.nil_append] at hwalk
    rw [collect, hwalk]
    by_cases hunknown : ∃ u ∈ σ.reachable σ.globalSlotCapVars vars,
        u ∉ σ.globalSlotCapVars ∧ σ.binding u = some .unknown
    · simp only [if_pos hunknown]
      rfl
    · simp only [if_neg hunknown, Walk.row, CapRow.unionBits]
      refine congrArg₂ CapRow.resolved (Finset.union_comm _ _) ?_
      ext u
      simp only [Finset.mem_union, List.mem_toFinset, List.mem_filter, Finset.mem_filter,
        Finset.mem_sdiff, mem_capCycleNodes, hmem, decide_eq_true_eq]
      tauto

/-! ### Paths up to the first slot -/

variable {v u : CapVarId}

/-- A path either avoids `P` up to its end, or it meets a first variable of `P`. -/
theorem exists_first_stop {P : Finset CapVarId} (h : ReflTransGen σ.Edge v u) :
    ReflTransGen (σ.Avoiding P) v u ∨
      ∃ g ∈ P, ReflTransGen (σ.Avoiding P) v g ∧ ReflTransGen σ.Edge g u := by
  induction h using ReflTransGen.head_induction_on with
  | refl => exact .inl .refl
  | @head v w hstep hrest ih =>
    by_cases hv : v ∈ P
    · exact .inr ⟨v, hv, .refl, .head hstep hrest⟩
    · rcases ih with hpath | ⟨g, hg, hpath, hgu⟩
      · exact .inl (.head ⟨hstep, hv⟩ hpath)
      · exact .inr ⟨g, hg, .head ⟨hstep, hv⟩ hpath, hgu⟩

theorem reaches_of_avoiding {P : Finset CapVarId} (h : ReflTransGen (σ.Avoiding P) v u) :
    ReflTransGen σ.Edge v u :=
  avoiding_empty.mp (avoiding_mono (Finset.empty_subset P) h)

/-- What a variable reaches, it holds. -/
theorem row_le_resolveCapVar_of_reaches {a : Atom} (h : ReflTransGen σ.Edge v u)
    (ha : a.row ≤ σ.resolveCapVar u) : a.row ≤ σ.resolveCapVar v := by
  rw [row_le_resolveCapVar] at ha ⊢
  rcases ha with ⟨w, hw, ha⟩ | ⟨w, hw, hopen, ha⟩
  · exact .inl ⟨w, h.trans hw, ha⟩
  · exact .inr ⟨w, h.trans hw, hopen, ha⟩

/-! ### Later bindings of global slots -/

/-- The variables that a row reaches without going on from a global slot. -/
def visitedVars (σ : CapEngine) (row : CapRow) : Finset CapVarId :=
  σ.reachable σ.globalSlotCapVars row.varIds

/-- The variables that stay in the row. -/
def keptVars (σ : CapEngine) (row : CapRow) : Finset CapVarId :=
  (σ.visitedVars row).filter fun v => v ∈ σ.globalSlotCapVars ∨ !σ.isBound v ∨ σ.onCycle v

theorem mem_keptVars {row : CapRow} :
    v ∈ σ.keptVars row ↔ v ∈ σ.visitedVars row ∧
      (v ∈ σ.globalSlotCapVars ∨ σ.isBound v = false ∨ σ.onCycle v) := by
  rw [keptVars, Finset.mem_filter, Bool.not_eq_true']

theorem visitedVars_of_mem {row : CapRow} (hv : v ∈ row.varIds) : v ∈ σ.visitedVars row :=
  mem_reachable_avoiding.mpr ⟨v, hv, .refl⟩

theorem visitedVars_closed {row : CapRow} (hv : v ∈ σ.visitedVars row)
    (h : ReflTransGen (σ.Avoiding σ.globalSlotCapVars) v u) : u ∈ σ.visitedVars row := by
  obtain ⟨w, hw, hwv⟩ := mem_reachable_avoiding.mp hv
  exact mem_reachable_avoiding.mpr ⟨w, hw, hwv.trans h⟩

/-- Of the variables that `row` reaches without going on from a global slot, `τ` binds those that
are no global slots as `σ` does. -/
def SameBetweenSlots (σ τ : CapEngine) (row : CapRow) : Prop :=
  ∀ v ∈ σ.visitedVars row, v ∉ σ.globalSlotCapVars → τ.binding v = σ.binding v

namespace SameBetweenSlots

variable {row : CapRow}

section

variable (h : SameBetweenSlots σ τ row)

include h

theorem edge {w : CapVarId} (hv : v ∈ σ.visitedVars row) (hslot : v ∉ σ.globalSlotCapVars) :
    τ.Edge v w ↔ σ.Edge v w := by
  rw [Edge, Edge, succs, succs, h v hv hslot]

/-- Up to the first slot, the two graphs have the same paths from the variables of the row. -/
theorem avoiding (hv : v ∈ σ.visitedVars row) :
    ReflTransGen (τ.Avoiding σ.globalSlotCapVars) v u ↔
      ReflTransGen (σ.Avoiding σ.globalSlotCapVars) v u := by
  constructor
  · intro hpath
    induction hpath with
    | refl => exact .refl
    | tail _ hstep ih =>
      have hlast := visitedVars_closed hv ih
      exact ih.tail ⟨(h.edge hlast hstep.2).mp hstep.1, hstep.2⟩
  · intro hpath
    induction hpath with
    | refl => exact .refl
    | tail hbefore hstep ih =>
      have hlast := visitedVars_closed hv hbefore
      exact ih.tail ⟨(h.edge hlast hstep.2).mpr hstep.1, hstep.2⟩

theorem reached (hu : u ∈ σ.visitedVars row) : ∃ v ∈ row.varIds, ReflTransGen τ.Edge v u := by
  obtain ⟨v, hv, hpath⟩ := mem_reachable_avoiding.mp hu
  exact ⟨v, hv, reaches_of_avoiding ((h.avoiding (visitedVars_of_mem hv)).mpr hpath)⟩

/-- A path of `τ` is one of `σ`, or it goes on from a slot that stays in the row. -/
theorem split (hv : v ∈ σ.visitedVars row) (hvu : ReflTransGen τ.Edge v u) :
    ReflTransGen (σ.Avoiding σ.globalSlotCapVars) v u ∨
      ∃ g ∈ σ.keptVars row, ReflTransGen τ.Edge g u := by
  rcases exists_first_stop (P := σ.globalSlotCapVars) hvu with hpath | ⟨g, hg, hpath, hgu⟩
  · exact .inl ((h.avoiding hv).mp hpath)
  · have hvisited := visitedVars_closed hv ((h.avoiding hv).mp hpath)
    exact .inr ⟨g, mem_keptVars.mpr ⟨hvisited, .inl hg⟩, hgu⟩

/-- What `τ` leaves open stays in the row, or a slot that stays in the row leads there. -/
theorem kept_of_open (hu : u ∈ σ.visitedVars row) (hopen : τ.isBound u = false ∨ τ.onCycle u) :
    ∃ g ∈ σ.keptVars row, ReflTransGen τ.Edge g u := by
  by_cases hslot : u ∈ σ.globalSlotCapVars
  · exact ⟨u, mem_keptVars.mpr ⟨hu, .inl hslot⟩, .refl⟩
  rcases hopen with hunbound | hcycle
  · rw [isBound, h u hu hslot] at hunbound
    exact ⟨u, mem_keptVars.mpr ⟨hu, .inr (.inl hunbound)⟩, .refl⟩
  · -- The cycle is one of `σ`, or it passes a slot.
    obtain ⟨w, hstep, hback⟩ := TransGen.head'_iff.mp (onCycle_iff.mp hcycle)
    have hstep : σ.Edge u w := (h.edge hu hslot).mp hstep
    have hw := visitedVars_closed hu (.single ⟨hstep, hslot⟩)
    rcases h.split hw hback with hpath | hkept
    · have hcycle : σ.onCycle u :=
        onCycle_iff.mpr (TransGen.head'_iff.mpr ⟨w, hstep, reaches_of_avoiding hpath⟩)
      exact ⟨u, mem_keptVars.mpr ⟨hu, .inr (.inr hcycle)⟩, .refl⟩
    · exact hkept

theorem ownRow_eq (hu : u ∈ σ.visitedVars row) (hslot : u ∉ σ.globalSlotCapVars) :
    τ.ownRow u = σ.ownRow u := by
  rw [ownRow, ownRow, h u hu hslot]

end

end SameBetweenSlots

theorem closed_finsetSup (s : Finset CapVarId) (f : CapVarId → CapBits) :
    CapRow.closed (s.sup f) = s.sup fun u => .closed (f u) := by
  induction s using Finset.induction_on with
  | empty => rfl
  | insert u s hu ih =>
    rw [Finset.sup_insert, Finset.sup_insert, ← ih]
    rfl

/-- What the walk keeps is what the visited variables hold themselves, and the variables that stay
in the row. -/
theorem resolve_keepingSlots_eq (σ τ : CapEngine) (concrete : CapBits) (vars : Finset CapVarId) :
    τ.resolveCapRow (σ.resolveCapRowKeepingSlots (.resolved concrete vars)) =
      (σ.visitedVars (.resolved concrete vars) \ σ.globalSlotCapVars).sup σ.ownRow ⊔
        (.closed concrete ⊔ (σ.keptVars (.resolved concrete vars)).sup τ.resolveCapVar) := by
  set visited := σ.visitedVars (.resolved concrete vars) with hvisited
  have hkeep : σ.resolveCapRowKeepingSlots (.resolved concrete vars) =
      (σ.collect σ.globalSlotCapVars visited).unionBits concrete := by
    rw [resolveCapRowKeepingSlots]
    split
    · rename_i hvars
      have hnone : visited = ∅ := by
        ext w
        rw [hvisited, visitedVars, mem_reachable_avoiding]
        simp [hvars, CapRow.varIds]
      simp [hnone, hvars, collect, CapRow.unionBits]
    · rfl
  rw [hkeep, collect]
  split
  · rename_i hunknown
    obtain ⟨u, hu, hslot, hb⟩ := hunknown
    have hown : σ.ownRow u = .unknown := by rw [ownRow, hb]
    have hmem : u ∈ visited \ σ.globalSlotCapVars := Finset.mem_sdiff.mpr ⟨hu, hslot⟩
    have hle : CapRow.unknown ≤ (visited \ σ.globalSlotCapVars).sup σ.ownRow :=
      hown ▸ Finset.le_sup (f := σ.ownRow) hmem
    exact (unknown_le_iff.mp (le_sup_of_le_left hle)).symm
  · rename_i hknown
    have hbits : (visited \ σ.globalSlotCapVars).sup σ.ownRow =
        .closed ((visited \ σ.globalSlotCapVars).sup σ.ownBits) := by
      rw [closed_finsetSup]
      refine Finset.sup_congr rfl fun u hu => ownRow_eq_closed fun hb => hknown ?_
      exact ⟨u, (Finset.mem_sdiff.mp hu).1, (Finset.mem_sdiff.mp hu).2, hb⟩
    rw [hbits, ← sup_assoc]
    rfl

/-- Where only the slots that a row keeps were bound further, resolving what was kept is resolving
the row. -/
theorem resolveCapRow_keepingSlots {row : CapRow} (h : SameBetweenSlots σ τ row) :
    τ.resolveCapRow (σ.resolveCapRowKeepingSlots row) = τ.resolveCapRow row := by
  cases row with
  | unknown => rfl
  | resolved concrete vars =>
    rw [resolve_keepingSlots_eq]
    show _ = CapRow.closed concrete ⊔ vars.sup τ.resolveCapVar
    refine eq_of_atoms fun a => ?_
    simp only [Atom.row_le_sup, Atom.row_le_finsetSup]
    constructor
    · rintro (⟨u, hu, ha⟩ | ha | ⟨u, hu, ha⟩)
      · obtain ⟨hu, hslot⟩ := Finset.mem_sdiff.mp hu
        obtain ⟨v, hv, hvu⟩ := h.reached hu
        rw [← h.ownRow_eq hu hslot] at ha
        exact .inr ⟨v, hv, (row_le_resolveCapVar v).mpr (.inl ⟨u, hvu, ha⟩)⟩
      · exact .inl ha
      · obtain ⟨v, hv, hvu⟩ := h.reached (mem_keptVars.mp hu).1
        exact .inr ⟨v, hv, row_le_resolveCapVar_of_reaches hvu ha⟩
    · rintro (ha | ⟨v, hv, ha⟩)
      · exact .inr (.inl ha)
      have hv : v ∈ σ.visitedVars (.resolved concrete vars) := visitedVars_of_mem hv
      rcases (row_le_resolveCapVar v).mp ha with ⟨u, hvu, ha⟩ | ⟨u, hvu, hopen, ha⟩
      · have hself : a.row ≤ τ.resolveCapVar u := (row_le_resolveCapVar u).mpr (.inl ⟨u, .refl, ha⟩)
        rcases h.split hv hvu with hpath | ⟨g, hg, hgu⟩
        · have hu := visitedVars_closed hv hpath
          by_cases hslot : u ∈ σ.globalSlotCapVars
          · exact .inr (.inr ⟨u, mem_keptVars.mpr ⟨hu, .inl hslot⟩, hself⟩)
          · rw [h.ownRow_eq hu hslot] at ha
            exact .inl ⟨u, Finset.mem_sdiff.mpr ⟨hu, hslot⟩, ha⟩
        · exact .inr (.inr ⟨g, hg, row_le_resolveCapVar_of_reaches hgu hself⟩)
      · have hself : a.row ≤ τ.resolveCapVar u :=
          (row_le_resolveCapVar u).mpr (.inr ⟨u, .refl, hopen, ha⟩)
        have hkept : ∃ g ∈ σ.keptVars (.resolved concrete vars), ReflTransGen τ.Edge g u := by
          rcases h.split hv hvu with hpath | hkept
          · exact h.kept_of_open (visitedVars_closed hv hpath) hopen
          · exact hkept
        obtain ⟨g, hg, hgu⟩ := hkept
        exact .inr (.inr ⟨g, hg, row_le_resolveCapVar_of_reaches hgu hself⟩)

/-! ### Runs of bindings -/

/-- Bind each row to its variable, in turn. -/
def bindAll (σ : CapEngine) (binds : List (CapVarId × CapRow)) : CapEngine :=
  binds.foldl (fun σ b => σ.bindCapVar b.1 b.2) σ

/-- No store waits for a global slot. -/
def NothingWaits (σ : CapEngine) : Prop :=
  ∀ g ∈ σ.globalSlotCapVars, σ.deferredOf g = [] ∧ σ.lambdaStoresOf g = []

/-- A binding that no store waited for touches one variable. -/
theorem bindCapVar_of_nothing_waits {id : CapVarId} (hd : σ.deferredOf id = [])
    (hl : σ.lambdaStoresOf id = []) (row : CapRow) (hv : v ≠ id) :
    (σ.bindCapVar id row).binding v = σ.binding v := by
  rw [bindCapVar_eq]
  split
  · exact touch_binding σ id v
  · split
    · exact touch_binding σ id v
    · rw [hd, hl, List.foldl_nil, List.foldl_nil, insertBinding_binding, if_neg hv, touch_binding]

theorem Grows.nothingWaits (h : Grows σ τ) (hσ : NothingWaits σ) : NothingWaits τ := by
  intro g hg
  rw [h.globals] at hg
  obtain ⟨hd, hl⟩ := hσ g hg
  refine ⟨List.subset_nil.mp (hd ▸ h.deferred g), ?_⟩
  rw [lambdaStoresOf, h.lambdas]
  exact hl

/-- Without waiting stores, bindings of global slots leave every other variable as it is. -/
theorem bindAll_of_nothingWaits (binds : List (CapVarId × CapRow)) (hσ : NothingWaits σ)
    (hslots : ∀ b ∈ binds, b.1 ∈ σ.globalSlotCapVars) (hv : v ∉ σ.globalSlotCapVars) :
    (σ.bindAll binds).binding v = σ.binding v := by
  induction binds generalizing σ with
  | nil => rfl
  | cons b binds ih =>
    have hgrow := bindCapVar_grows σ b.1 b.2
    have hb := hslots b List.mem_cons_self
    have hrest : ∀ c ∈ binds, c.1 ∈ (σ.bindCapVar b.1 b.2).globalSlotCapVars := by
      intro c hc
      rw [hgrow.globals]
      exact hslots c (List.mem_cons_of_mem b hc)
    rw [← hgrow.globals] at hv
    refine (ih (hgrow.nothingWaits hσ) hrest hv).trans ?_
    rw [hgrow.globals] at hv
    exact bindCapVar_of_nothing_waits (hσ b.1 hb).1 (hσ b.1 hb).2 b.2 fun heq => hv (heq ▸ hb)

theorem sameBetweenSlots_of_nothingWaits (row : CapRow) (binds : List (CapVarId × CapRow))
    (hσ : NothingWaits σ) (hslots : ∀ b ∈ binds, b.1 ∈ σ.globalSlotCapVars) :
    SameBetweenSlots σ (σ.bindAll binds) row :=
  fun _ _ hv => bindAll_of_nothingWaits binds hσ hslots hv

/-- Keeping the global slots open loses nothing: not at once, and not after bindings that leave the
other variables that the row reaches as they are. -/
theorem keepingSlots_loses_nothing (σ : CapEngine) (row : CapRow)
    (binds : List (CapVarId × CapRow)) (h : SameBetweenSlots σ (σ.bindAll binds) row) :
    σ.resolveCapRow (σ.resolveCapRowKeepingSlots row) = σ.resolveCapRow row ∧
      (σ.bindAll binds).resolveCapRow (σ.resolveCapRowKeepingSlots row) =
        (σ.bindAll binds).resolveCapRow row :=
  ⟨resolveCapRow_keepingSlots fun _ _ _ => rfl, resolveCapRow_keepingSlots h⟩

/-- A global slot `0`, and a variable `1` that reads it. -/
def slotReader : CapEngine :=
  ({ new with slotCapVars := {0}, globalSlotCapVars := {0} }).bindCapVar 1 (.var 0)

/-- The slot is bound to its reader, which makes a cycle, and to a new capability. -/
def laterBinds : List (CapVarId × CapRow) := [(0, .var 1), (0, .closed {.net})]

theorem slotReader_nothingWaits : NothingWaits slotReader :=
  (bindCapVar_grows _ 1 (.var 0)).nothingWaits fun _ _ => ⟨rfl, rfl⟩

theorem slotReader_loses_nothing :
    slotReader.resolveCapRow (slotReader.resolveCapRowKeepingSlots (.var 1)) =
        slotReader.resolveCapRow (.var 1) ∧
      (slotReader.bindAll laterBinds).resolveCapRow
          (slotReader.resolveCapRowKeepingSlots (.var 1)) =
        (slotReader.bindAll laterBinds).resolveCapRow (.var 1) :=
  keepingSlots_loses_nothing slotReader (.var 1) laterBinds
    (sameBetweenSlots_of_nothingWaits _ _ slotReader_nothingWaits (by decide))

/-- A store into the parameter `0` of a lambda, a global slot, that carries on to the storage `1`,
which is none. -/
def waitingStore : CapEngine :=
  let stores : VarMap (List CapRow) := (∅ : VarMap (List CapRow)).insert 0 [.closed {.fsRead}]
  let start : CapEngine :=
    { new with slotCapVars := {0, 1}, globalSlotCapVars := {0}, lambdaInputStores := stores }
  start.bindCapVar 1 (.closed {.io})

/-- A row that reads the storage `1` misses the store that the binding of `0` carries out. -/
theorem waiting_store_is_lost :
    0 ∈ waitingStore.globalSlotCapVars ∧
      (waitingStore.bindCapVar 0 (.var 1)).resolveCapRow
          (waitingStore.resolveCapRowKeepingSlots (.var 1)) ≠
        (waitingStore.bindCapVar 0 (.var 1)).resolveCapRow (.var 1) := by
  decide

end Kryos.Types.CapEngine

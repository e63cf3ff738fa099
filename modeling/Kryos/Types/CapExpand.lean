import Mathlib
import Kryos.Types.CapMemo

/-!
# The recursive resolution that the walk replaced

Before the walk, a row was resolved by expanding each of its variables in turn, and a variable was
left open if it was unbound or already on the path of the expansion. Both definitions meet the same
variables, so they agree on the bits and on unknown rows. They do not agree on cycles: the expansion
leaves open the variables that it comes back to, and the walk leaves open every variable on a cycle.
The expansion of `x` in `x := y, y := x` comes back to `x`, never to `y`.

The expansion comes back to a variable exactly if some path to it meets a cycle through it in no
other variable (`Lasso`). So the two agree on a row exactly if every variable on a cycle that the row
reaches has such a path, or the row is unknown.
-/

namespace Kryos.Types.CapEngine

open Relation CapRow

variable {σ : CapEngine}

/-- The expansion of a variable, `path` being the variables that are being expanded. -/
def expandVar (σ : CapEngine) (path : Finset CapVarId) (v : CapVarId) : CapRow :=
  if _h : v ∈ path then .var v
  else
    match _hb : σ.binding v with
    | none => .var v
    | some .unknown => .unknown
    | some (.resolved concrete vars) =>
      .closed concrete ⊔ vars.sup fun w => expandVar σ (insert v path) w
termination_by (σ.capSubstitutions.keys.toFinset \ path).card
decreasing_by
  have hv : v ∈ σ.capSubstitutions.keys.toFinset := by
    rw [List.mem_toFinset, mem_keys_iff, isBound, _hb, Option.isSome_some]
  refine Finset.card_lt_card ⟨?_, fun hsub => ?_⟩
  · exact Finset.sdiff_subset_sdiff (Finset.Subset.refl _) (Finset.subset_insert v path)
  · have := hsub (Finset.mem_sdiff.mpr ⟨hv, _h⟩)
    exact (Finset.mem_sdiff.mp this).2 (Finset.mem_insert_self v path)

def expandRow (σ : CapEngine) : CapRow → CapRow
  | .unknown => .unknown
  | .resolved concrete vars => .closed concrete ⊔ vars.sup (σ.expandVar ∅)

variable {path : Finset CapVarId} {v : CapVarId}

theorem expandVar_of_mem (h : v ∈ path) : σ.expandVar path v = .var v := by
  rw [expandVar, dif_pos h]

variable {w : CapVarId}

/-- A variable that is bound to a single variable expands to what that one expands to. -/
theorem expandVar_of_binding (h : v ∉ path) (hb : σ.binding v = some (.var w)) :
    σ.expandVar path v = σ.expandVar (insert v path) w := by
  rw [expandVar, dif_neg h]
  split
  · rename_i hnone
    rw [hb] at hnone
    cases hnone
  · rename_i hunknown
    rw [hb] at hunknown
    cases hunknown
  · rename_i concrete vars hrow
    rw [hb] at hrow
    obtain ⟨rfl, rfl⟩ : ∅ = concrete ∧ {w} = vars := by simpa [CapRow.var] using hrow
    rw [Finset.sup_singleton]
    exact bot_sup_eq _

/-! ### What an expansion meets -/

/-- The authority that a variable adds by itself. -/
def ownRow (σ : CapEngine) (v : CapVarId) : CapRow :=
  match σ.binding v with
  | none => ⊥
  | some .unknown => .unknown
  | some (.resolved concrete _) => .closed concrete

theorem ownRow_eq_closed (h : σ.binding v ≠ some .unknown) :
    σ.ownRow v = .closed (σ.ownBits v) := by
  rw [ownRow, ownBits]
  cases hb : σ.binding v with
  | none => rfl
  | some row =>
    cases row with
    | unknown => exact absurd hb h
    | resolved c vs => rfl

/-- The expansion of `v` expands `u` at some point. -/
inductive Meets (σ : CapEngine) : Finset CapVarId → CapVarId → CapVarId → Prop
  | here {path : Finset CapVarId} {v : CapVarId} (h : v ∉ path) : Meets σ path v v
  | step {path : Finset CapVarId} {v w u : CapVarId} (h : v ∉ path) (hw : w ∈ σ.succs v)
      (hu : Meets σ (insert v path) w u) : Meets σ path v u

/-- The expansion of `v` leaves `u` open at some point. -/
inductive Opens (σ : CapEngine) : Finset CapVarId → CapVarId → CapVarId → Prop
  | here {path : Finset CapVarId} {v : CapVarId} (h : v ∈ path ∨ σ.isBound v = false) :
      Opens σ path v v
  | step {path : Finset CapVarId} {v w u : CapVarId} (h : v ∉ path) (hw : w ∈ σ.succs v)
      (hu : Opens σ (insert v path) w u) : Opens σ path v u

/-- The expansion is the union of what it meets and what it leaves open. -/
theorem row_le_expandVar {a : Atom} (path : Finset CapVarId) (v : CapVarId) :
    a.row ≤ σ.expandVar path v ↔
      (∃ u, Meets σ path v u ∧ a.row ≤ σ.ownRow u) ∨ ∃ u, Opens σ path v u ∧ a.row ≤ .var u := by
  fun_induction expandVar σ path v with
  | case1 path v h =>
    constructor
    · exact fun ha => .inr ⟨v, .here (.inl h), ha⟩
    · rintro (⟨u, hu, -⟩ | ⟨u, hu, ha⟩)
      · cases hu <;> contradiction
      · cases hu with
        | here => exact ha
        | step hn => exact absurd h hn
  | case2 path v h hb =>
    have hbound : σ.isBound v = false := by rw [isBound, hb, Option.isSome_none]
    have hsuccs : σ.succs v = ∅ := by rw [succs, hb]
    have hown : σ.ownRow v = ⊥ := by rw [ownRow, hb]
    constructor
    · exact fun ha => .inr ⟨v, .here (.inr hbound), ha⟩
    · rintro (⟨u, hu, ha⟩ | ⟨u, hu, ha⟩)
      · cases hu with
        | here =>
          rw [hown] at ha
          exact absurd ha a.not_row_le_bot
        | step _ hw =>
          rw [hsuccs] at hw
          cases hw
      · cases hu with
        | here => exact ha
        | step _ hw =>
          rw [hsuccs] at hw
          cases hw
  | case3 path v h hb =>
    have hown : σ.ownRow v = .unknown := by rw [ownRow, hb]
    exact iff_of_true (le_unknown _) (.inl ⟨v, .here h, hown ▸ le_unknown _⟩)
  | case4 path v h concrete vars hb ih =>
    have hsuccs : σ.succs v = vars := by
      rw [succs, hb]
      rfl
    have hown : σ.ownRow v = .closed concrete := by rw [ownRow, hb]
    have hbound : σ.isBound v = true := by rw [isBound, hb, Option.isSome_some]
    rw [Atom.row_le_sup, Atom.row_le_finsetSup]
    constructor
    · rintro (ha | ⟨w, hw, ha⟩)
      · exact .inl ⟨v, .here h, hown ▸ ha⟩
      · rcases (ih w).mp ha with ⟨u, hu, ha⟩ | ⟨u, hu, ha⟩
        · exact .inl ⟨u, .step h (hsuccs ▸ hw) hu, ha⟩
        · exact .inr ⟨u, .step h (hsuccs ▸ hw) hu, ha⟩
    · rintro (⟨u, hu, ha⟩ | ⟨u, hu, ha⟩)
      · cases hu with
        | here => exact .inl (hown ▸ ha)
        | step _ hw hu => exact .inr ⟨_, hsuccs ▸ hw, (ih _).mpr (.inl ⟨u, hu, ha⟩)⟩
      · cases hu with
        | here hopen =>
          rw [hbound] at hopen
          exact (hopen.elim h Bool.noConfusion).elim
        | step _ hw hu => exact .inr ⟨_, hsuccs ▸ hw, (ih _).mpr (.inr ⟨u, hu, ha⟩)⟩

/-- What the walk answers, in the same form. -/
theorem row_le_resolveCapVar {a : Atom} (v : CapVarId) :
    a.row ≤ σ.resolveCapVar v ↔
      (∃ u, ReflTransGen σ.Edge v u ∧ a.row ≤ σ.ownRow u) ∨
        ∃ u, ReflTransGen σ.Edge v u ∧ (σ.isBound u = false ∨ σ.onCycle u) ∧ a.row ≤ .var u := by
  have hreach : ∀ u, u ∈ σ.reachable ∅ {v} ↔ ReflTransGen σ.Edge v u := by
    intro u
    rw [mem_reachable_iff]
    simp only [Finset.mem_singleton, exists_eq_left]
  rw [resolveCapVar, collect]
  split
  · rename_i hunknown
    obtain ⟨u, hu, -, hb⟩ := hunknown
    have hown : σ.ownRow u = .unknown := by rw [ownRow, hb]
    exact iff_of_true (le_unknown _) (.inl ⟨u, (hreach u).mp hu, hown ▸ le_unknown _⟩)
  · rename_i hknown
    have hknown : ∀ u, ReflTransGen σ.Edge v u → σ.binding u ≠ some .unknown := fun u hu hb =>
      hknown ⟨u, (hreach u).mpr hu, Finset.notMem_empty u, hb⟩
    -- Without an unknown row, the own row of a variable is the closed row of its bits.
    have hown : ∀ u, ReflTransGen σ.Edge v u → σ.ownRow u = .closed (σ.ownBits u) := fun u hu =>
      ownRow_eq_closed (hknown u hu)
    cases a with
    | unknown =>
      refine iff_of_false not_unknown_le ?_
      rintro (⟨u, hu, ha⟩ | ⟨u, -, -, ha⟩)
      · rw [hown u hu] at ha
        exact not_unknown_le ha
      · exact not_unknown_le ha
    | cap c =>
      rw [cap_le_iff, Finset.sdiff_empty, Finset.mem_sup]
      constructor
      · rintro ⟨u, hu, hc⟩
        have hu := (hreach u).mp hu
        exact .inl ⟨u, hu, hown u hu ▸ cap_le_iff.mpr hc⟩
      · rintro (⟨u, hu, ha⟩ | ⟨u, -, -, ha⟩)
        · rw [hown u hu] at ha
          exact ⟨u, (hreach u).mpr hu, cap_le_iff.mp ha⟩
        · exact absurd (cap_le_iff.mp ha) (Finset.notMem_empty c)
    | var w =>
      rw [var_le_iff, Finset.mem_filter, hreach, Bool.not_eq_true']
      simp only [Finset.notMem_empty, false_or]
      constructor
      · rintro ⟨hw, hopen⟩
        exact .inr ⟨w, hw, hopen, le_rfl⟩
      · rintro (⟨u, hu, ha⟩ | ⟨u, hu, hopen, ha⟩)
        · rw [hown u hu] at ha
          exact absurd (var_le_iff.mp ha) (Finset.notMem_empty w)
        · obtain rfl : w = u := Finset.mem_singleton.mp (var_le_iff.mp ha)
          exact ⟨hu, hopen⟩

/-! ### Paths that avoid variables -/

/-- An edge that does not start in `P`. -/
def Avoiding (σ : CapEngine) (P : Finset CapVarId) (a b : CapVarId) : Prop := σ.Edge a b ∧ a ∉ P

variable {P : Finset CapVarId}

theorem avoiding_mono {Q : Finset CapVarId} (h : P ⊆ Q) {a b : CapVarId}
    (hab : ReflTransGen (σ.Avoiding Q) a b) : ReflTransGen (σ.Avoiding P) a b := by
  have hle : σ.Avoiding Q ≤ σ.Avoiding P := fun _ _ hstep =>
    ⟨hstep.1, fun hP => hstep.2 (h hP)⟩
  exact ReflTransGen.mono hle a b hab

theorem avoiding_empty {a b : CapVarId} :
    ReflTransGen (σ.Avoiding ∅) a b ↔ ReflTransGen σ.Edge a b := by
  have heq : σ.Avoiding ∅ = σ.Edge := by
    funext a b
    exact propext (and_iff_left (Finset.notMem_empty a))
  rw [heq]

/-- A path to `t` can be cut at the last time it leaves `s`. -/
theorem exists_avoiding_insert {s x t : CapVarId} (h : ReflTransGen (σ.Avoiding P) x t) :
    ReflTransGen (σ.Avoiding (insert s P)) x t ∨
      ∃ s', σ.Edge s s' ∧ ReflTransGen (σ.Avoiding (insert s P)) s' t := by
  induction h using ReflTransGen.head_induction_on with
  | refl => exact .inl .refl
  | head hstep hrest ih =>
    rename_i x y
    rcases ih with hy | hs
    · by_cases hx : x = s
      · exact .inr ⟨y, hx ▸ hstep.1, hy⟩
      · refine .inl (.head ⟨hstep.1, fun hmem => ?_⟩ hy)
        exact (Finset.mem_insert.mp hmem).elim hx hstep.2
    · exact .inr hs

/-- A path that leaves its start starts with an edge to a path that never comes back. -/
theorem exists_first_edge {t : CapVarId} (hne : v ≠ t) (h : ReflTransGen (σ.Avoiding P) v t) :
    v ∉ P ∧ ∃ w, σ.Edge v w ∧ ReflTransGen (σ.Avoiding (insert v P)) w t := by
  obtain heq | ⟨x, hstep, -⟩ := ReflTransGen.cases_head h
  · exact absurd heq hne
  · refine ⟨hstep.2, ?_⟩
    rcases exists_avoiding_insert (s := v) h with hin | hout
    · obtain heq | ⟨y, hstep', -⟩ := ReflTransGen.cases_head hin
      · exact absurd heq hne
      · exact absurd (Finset.mem_insert_self v P) hstep'.2
    · exact hout

/-- Each variable that is put on the path is bound, so there are finitely many. -/
theorem card_insert_lt (hv : v ∉ path) (hw : σ.Edge v w) :
    (σ.capSubstitutions.keys.toFinset \ insert v path).card <
      (σ.capSubstitutions.keys.toFinset \ path).card := by
  have hkey : v ∈ σ.capSubstitutions.keys.toFinset := by
    rw [List.mem_toFinset]
    by_contra hk
    rw [Edge, succs_eq_empty hk] at hw
    cases hw
  refine Finset.card_lt_card ⟨?_, fun hsub => ?_⟩
  · exact Finset.sdiff_subset_sdiff (Finset.Subset.refl _) (Finset.subset_insert v path)
  · have := hsub (Finset.mem_sdiff.mpr ⟨hkey, hv⟩)
    exact (Finset.mem_sdiff.mp this).2 (Finset.mem_insert_self v path)

/-- An induction on the path of an expansion. -/
theorem path_induction {motive : Finset CapVarId → CapVarId → Prop}
    (h : ∀ path v, (∀ w, v ∉ path → σ.Edge v w → motive (insert v path) w) → motive path v)
    (path : Finset CapVarId) (v : CapVarId) : motive path v := by
  generalize hk : (σ.capSubstitutions.keys.toFinset \ path).card = k
  induction k using Nat.strong_induction_on generalizing path v with
  | _ k ih =>
    refine h path v fun w hv hw => ih _ ?_ (insert v path) w rfl
    rw [← hk]
    exact card_insert_lt hv hw

variable {u : CapVarId}

theorem meets_iff : Meets σ path v u ↔ u ∉ path ∧ ReflTransGen (σ.Avoiding path) v u := by
  constructor
  · intro h
    induction h with
    | here h => exact ⟨h, .refl⟩
    | step h hw _ ih =>
      refine ⟨fun hu => ih.1 (Finset.mem_insert_of_mem hu), .head ⟨hw, h⟩ ?_⟩
      exact avoiding_mono (Finset.subset_insert _ _) ih.2
  · induction path, v using path_induction (σ := σ) with
    | _ path v ih =>
      rintro ⟨hu, hreach⟩
      by_cases hvu : v = u
      · rw [hvu]
        exact .here hu
      · obtain ⟨hv, w, hw, hrest⟩ := exists_first_edge hvu hreach
        refine .step hv hw (ih w hv hw ⟨fun hmem => ?_, hrest⟩)
        exact (Finset.mem_insert.mp hmem).elim (fun h => hvu h.symm) hu

/-- A path from `v` to `u` and a cycle through `u` that meet in `u` only: the cycle stays in the
variables `C` and `u`, and the path leaves none of `C`. -/
def Lasso (σ : CapEngine) (v u : CapVarId) : Prop :=
  ∃ C : Finset CapVarId, TransGen (fun a b => σ.Edge a b ∧ b ∈ insert u C) u u ∧
    ReflTransGen (σ.Avoiding C) v u

/-- A lasso that also avoids `path`. -/
def LassoOff (σ : CapEngine) (path : Finset CapVarId) (v u : CapVarId) : Prop :=
  u ∉ path ∧ ∃ C : Finset CapVarId, Disjoint C path ∧
    TransGen (fun a b => σ.Edge a b ∧ b ∈ insert u C) u u ∧
      ReflTransGen (σ.Avoiding (path ∪ C)) v u

/-- An expansion that comes back to a variable has found a lasso. -/
theorem lassoOff_of_return (hv : v ∉ path) (hw : σ.Edge v w)
    (h : ReflTransGen (σ.Avoiding (insert v path)) w v) : LassoOff σ path v v := by
  refine ⟨hv, σ.graphVars \ insert v path, ?_, ?_, .refl⟩
  · rw [Finset.disjoint_left]
    exact fun x hx hp => (Finset.mem_sdiff.mp hx).2 (Finset.mem_insert_of_mem hp)
  · have hstay : ∀ {x : CapVarId}, x ∈ σ.graphVars →
        ReflTransGen (σ.Avoiding (insert v path)) x v →
        x ∈ insert v (σ.graphVars \ insert v path) := by
      intro x hx hxv
      obtain rfl | ⟨y, hstep, -⟩ := ReflTransGen.cases_head hxv
      · exact Finset.mem_insert_self _ _
      · exact Finset.mem_insert_of_mem (Finset.mem_sdiff.mpr ⟨hx, hstep.2⟩)
    refine TransGen.head' ⟨hw, hstay (succs_subset_graphVars v hw) h⟩ ?_
    clear hw
    induction h using ReflTransGen.head_induction_on with
    | refl => exact .refl
    | head hstep hrest ih =>
      exact .head ⟨hstep.1, hstay (succs_subset_graphVars _ hstep.1) hrest⟩ ih

theorem opens_iff :
    Opens σ path v u ↔
      (ReflTransGen (σ.Avoiding path) v u ∧ (u ∈ path ∨ σ.isBound u = false)) ∨
        LassoOff σ path v u := by
  constructor
  · intro h
    induction h with
    | here h => exact .inl ⟨.refl, h⟩
    | step hv hw _ ih =>
      rename_i path v w u _
      rcases ih with ⟨hreach, hu⟩ | ⟨hu, C, hdisj, hcycle, hreach⟩
      · by_cases hvu : u = v
        · subst hvu
          exact .inr (lassoOff_of_return hv hw hreach)
        · refine .inl ⟨.head ⟨hw, hv⟩ (avoiding_mono (Finset.subset_insert _ _) hreach), ?_⟩
          exact hu.imp_left fun hmem => (Finset.mem_insert.mp hmem).resolve_left hvu
      · rw [Finset.disjoint_insert_right] at hdisj
        refine .inr ⟨fun hp => hu (Finset.mem_insert_of_mem hp), C, hdisj.2, hcycle, ?_⟩
        refine .head ⟨hw, fun hmem => (Finset.mem_union.mp hmem).elim hv hdisj.1⟩ ?_
        exact avoiding_mono (Finset.union_subset_union (Finset.subset_insert _ _)
          (Finset.Subset.refl _)) hreach
  · -- First the paths that end in a variable that is left open at once.
    have hpath : ∀ path v, ReflTransGen (σ.Avoiding path) v u →
        u ∈ path ∨ σ.isBound u = false → Opens σ path v u := by
      intro path v
      induction path, v using path_induction (σ := σ) with
      | _ path v ih =>
        intro hreach hu
        by_cases hvu : v = u
        · rw [hvu]
          exact .here hu
        · obtain ⟨hv, w, hw, hrest⟩ := exists_first_edge hvu hreach
          exact .step hv hw (ih w hv hw hrest (hu.imp_left Finset.mem_insert_of_mem))
    rintro (⟨hreach, hu⟩ | hlasso)
    · exact hpath path v hreach hu
    · induction path, v using path_induction (σ := σ) with
      | _ path v ih =>
        obtain ⟨hu, C, hdisj, hcycle, hreach⟩ := hlasso
        by_cases hvu : v = u
        · subst hvu
          obtain ⟨w, ⟨hw, hwC⟩, hback⟩ := TransGen.head'_iff.mp hcycle
          refine .step hu hw (hpath _ w ?_ (.inl (Finset.mem_insert_self _ _)))
          -- The cycle is followed until it comes back for the first time.
          have hin : ∀ x, ReflTransGen (fun a b => σ.Edge a b ∧ b ∈ insert v C) x v →
              x ∈ insert v C → ReflTransGen (σ.Avoiding (insert v path)) x v := by
            intro x hx
            induction hx using ReflTransGen.head_induction_on with
            | refl => exact fun _ => .refl
            | head hstep _ ih' =>
              rename_i x y _
              intro hmem
              by_cases hxv : x = v
              · rw [hxv]
              · have hxC : x ∈ C := (Finset.mem_insert.mp hmem).resolve_left hxv
                refine .head ⟨hstep.1, fun hp => ?_⟩ (ih' hstep.2)
                exact (Finset.mem_insert.mp hp).elim hxv (Finset.disjoint_left.mp hdisj hxC)
          exact hin w hback hwC
        · obtain ⟨hv, w, hw, hrest⟩ := exists_first_edge hvu hreach
          rw [Finset.mem_union, not_or] at hv
          refine .step hv.1 hw (ih w hv.1 hw ⟨?_, C, ?_, hcycle, ?_⟩)
          · exact fun hmem => (Finset.mem_insert.mp hmem).elim (fun h => hvu h.symm) hu
          · rw [Finset.disjoint_insert_right]
            exact ⟨hv.2, hdisj⟩
          · rwa [Finset.insert_union]

theorem meets_empty : Meets σ ∅ v u ↔ ReflTransGen σ.Edge v u := by
  rw [meets_iff, avoiding_empty]
  exact and_iff_right (Finset.notMem_empty u)

theorem opens_empty :
    Opens σ ∅ v u ↔ (ReflTransGen σ.Edge v u ∧ σ.isBound u = false) ∨ Lasso σ v u := by
  have hlasso : LassoOff σ ∅ v u ↔ Lasso σ v u := by
    simp only [LassoOff, Lasso, Finset.notMem_empty, not_false_eq_true, true_and,
      Finset.disjoint_empty_right, Finset.empty_union]
  rw [opens_iff, avoiding_empty, hlasso]
  simp only [Finset.notMem_empty, false_or]

theorem Lasso.reaches (h : Lasso σ v u) : ReflTransGen σ.Edge v u := by
  obtain ⟨C, -, hreach⟩ := h
  exact avoiding_empty.mp (avoiding_mono (Finset.empty_subset C) hreach)

theorem Lasso.onCycle (h : Lasso σ v u) : σ.onCycle u := by
  obtain ⟨C, hcycle, -⟩ := h
  have hle : (fun a b => σ.Edge a b ∧ b ∈ insert u C) ≤ σ.Edge := fun _ _ hstep => hstep.1
  rw [onCycle_iff]
  exact TransGen.mono hle u u hcycle

theorem isBound_of_onCycle (h : σ.onCycle v) : σ.isBound v := by
  rw [onCycle_iff] at h
  obtain ⟨w, hw, -⟩ := TransGen.head'_iff.mp h
  by_contra hb
  rw [Edge, succs_eq_empty fun hk => hb (mem_keys_iff.mp hk)] at hw
  cases hw

/-! ### Where the two definitions agree -/

/-- The row is unknown, or reaches a variable that is bound to the unknown row. -/
def ReachesUnknown (σ : CapEngine) (row : CapRow) : Prop :=
  row = .unknown ∨ ∃ v ∈ row.varIds, ∃ u, ReflTransGen σ.Edge v u ∧ σ.binding u = some .unknown

/-- Every variable on a cycle that the row reaches is one that the expansion comes back to. -/
def CyclesReentered (σ : CapEngine) (row : CapRow) : Prop :=
  ∀ v ∈ row.varIds, ∀ u, ReflTransGen σ.Edge v u → σ.onCycle u → ∃ w ∈ row.varIds, Lasso σ w u

theorem row_le_resolved {a : Atom} {concrete : CapBits} {vars : Finset CapVarId}
    {f : CapVarId → CapRow} :
    a.row ≤ .closed concrete ⊔ vars.sup f ↔ a.row ≤ .closed concrete ∨ ∃ v ∈ vars, a.row ≤ f v := by
  rw [Atom.row_le_sup, Atom.row_le_finsetSup]

/-- The expansion leaves nothing open that the walk does not. -/
theorem row_le_resolve_of_le_expand {a : Atom} (h : a.row ≤ σ.expandVar ∅ v) :
    a.row ≤ σ.resolveCapVar v := by
  rw [row_le_expandVar] at h
  rw [row_le_resolveCapVar]
  rcases h with ⟨u, hu, ha⟩ | ⟨u, hu, ha⟩
  · exact .inl ⟨u, meets_empty.mp hu, ha⟩
  · rcases opens_empty.mp hu with ⟨hreach, hopen⟩ | hlasso
    · exact .inr ⟨u, hreach, .inl hopen, ha⟩
    · exact .inr ⟨u, hlasso.reaches, .inr hlasso.onCycle, ha⟩

theorem ownRow_eq_unknown_iff : σ.ownRow u = .unknown ↔ σ.binding u = some .unknown := by
  rw [ownRow]
  cases hb : σ.binding u with
  | none => simp [bot_eq_empty, CapRow.empty, closed]
  | some row => cases row <;> simp [closed]

theorem not_var_le_ownRow (h : σ.binding u ≠ some .unknown) : ¬ (Atom.var w).row ≤ σ.ownRow u := by
  rw [ownRow]
  cases hb : σ.binding u with
  | none => exact Atom.not_row_le_bot _
  | some row =>
    cases row with
    | unknown => exact absurd hb h
    | resolved c vs =>
      show ¬ (Atom.var w).row ≤ .resolved c ∅
      rw [var_le_iff]
      exact Finset.notMem_empty w

theorem resolve_eq_expandRow_iff (σ : CapEngine) (row : CapRow) :
    σ.resolveCapRow row = σ.expandRow row ↔ ReachesUnknown σ row ∨ CyclesReentered σ row := by
  cases row with
  | unknown => exact iff_of_true rfl (.inl (.inl rfl))
  | resolved concrete vars =>
    show CapRow.closed concrete ⊔ vars.sup σ.resolveCapVar =
      CapRow.closed concrete ⊔ vars.sup (σ.expandVar ∅) ↔ _
    constructor
    · intro heq
      by_cases hunknown : ReachesUnknown σ (.resolved concrete vars)
      · exact .inl hunknown
      refine .inr fun v hv u hu hcyc => ?_
      have hknown : ∀ w ∈ vars, ∀ x, ReflTransGen σ.Edge w x → σ.binding x ≠ some .unknown :=
        fun w hw x hx hb => hunknown (.inr ⟨w, hw, x, hx, hb⟩)
      -- The walk leaves `u` open, so the expansion does, and not because `u` is unbound.
      have hopen : (Atom.var u).row ≤ .closed concrete ⊔ vars.sup σ.resolveCapVar :=
        row_le_resolved.mpr (.inr ⟨v, hv, (row_le_resolveCapVar v).mpr
          (.inr ⟨u, hu, .inr hcyc, le_rfl⟩)⟩)
      rw [heq, row_le_resolved] at hopen
      rcases hopen with hc | ⟨w, hw, hle⟩
      · exact absurd (var_le_iff.mp hc) (Finset.notMem_empty u)
      · rcases (row_le_expandVar ∅ w).mp hle with ⟨x, hx, ha⟩ | ⟨x, hx, ha⟩
        · exact absurd ha (not_var_le_ownRow (hknown w hw x (meets_empty.mp hx)))
        · obtain rfl : u = x := Finset.mem_singleton.mp (var_le_iff.mp ha)
          rcases opens_empty.mp hx with ⟨-, hunbound⟩ | hlasso
          · rw [isBound_of_onCycle hcyc] at hunbound
            cases hunbound
          · exact ⟨w, hw, hlasso⟩
    · intro hcond
      refine eq_of_atoms fun a => ?_
      rw [row_le_resolved, row_le_resolved]
      refine or_congr_right ⟨?_, ?_⟩
      · rintro ⟨v, hv, ha⟩
        rcases hcond with (hrow | ⟨w, hw, u, hu, hb⟩) | hcycles
        · cases hrow
        · have hown := ownRow_eq_unknown_iff.mpr hb
          exact ⟨w, hw, (row_le_expandVar ∅ w).mpr
            (.inl ⟨u, meets_empty.mpr hu, hown ▸ le_unknown _⟩)⟩
        · rcases (row_le_resolveCapVar v).mp ha with ⟨u, hu, ha⟩ | ⟨u, hu, hopen, ha⟩
          · exact ⟨v, hv, (row_le_expandVar ∅ v).mpr (.inl ⟨u, meets_empty.mpr hu, ha⟩)⟩
          · rcases hopen with hunbound | hcyc
            · exact ⟨v, hv, (row_le_expandVar ∅ v).mpr
                (.inr ⟨u, opens_empty.mpr (.inl ⟨hu, hunbound⟩), ha⟩)⟩
            · obtain ⟨w, hw, hlasso⟩ := hcycles v hv u hu hcyc
              exact ⟨w, hw, (row_le_expandVar ∅ w).mpr
                (.inr ⟨u, opens_empty.mpr (.inr hlasso), ha⟩)⟩
      · rintro ⟨v, hv, ha⟩
        exact ⟨v, hv, row_le_resolve_of_le_expand ha⟩

/-- The caches never show, whatever was bound and resolved before; and the walk answers what the
expansion would have answered exactly on the rows that reach the unknown row, or every cycle of
which the expansion comes back to. -/
theorem resolution_matches_expansion (σ : CapEngine) (calls : List Memo.Call) (row : CapRow) :
    (((Memo.fresh σ).run calls).resolveCapRow row).1 =
      ((Memo.fresh ((Memo.fresh σ).run calls).engine).resolveCapRow row).1 ∧
    (((Memo.fresh σ).resolveCapRow row).1 = σ.expandRow row ↔
      ReachesUnknown σ row ∨ CyclesReentered σ row) := by
  constructor
  · have hrun := (Memo.sound_fresh σ).run calls
    rw [(hrun.resolveCapRow row).1, ((Memo.sound_fresh _).resolveCapRow row).1]
    rfl
  · rw [((Memo.sound_fresh σ).resolveCapRow row).1]
    exact resolve_eq_expandRow_iff σ row

/-- Two variables that are bound to each other. -/
def twoCycle : CapEngine := (new.bindCapVar 0 (.var 1)).bindCapVar 1 (.var 0)

/-- The walk leaves both variables open, the expansion only the one that it starts from. -/
theorem two_cycle_is_not_expanded_alike :
    ((Memo.fresh twoCycle).resolveCapRow (.var 0)).1 ≠ twoCycle.expandRow (.var 0) := by
  have hwalk : ((Memo.fresh twoCycle).resolveCapRow (.var 0)).1 = .resolved ∅ {0, 1} := by
    decide
  have hzero : twoCycle.binding 0 = some (.var 1) := by decide
  have hone : twoCycle.binding 1 = some (.var 0) := by decide
  have hexpand : twoCycle.expandRow (.var 0) = .var 0 := by
    show CapRow.closed ∅ ⊔ ({0} : Finset CapVarId).sup (twoCycle.expandVar ∅) = _
    rw [Finset.sup_singleton, expandVar_of_binding (Finset.notMem_empty 0) hzero,
      expandVar_of_binding (by decide) hone, expandVar_of_mem (by decide)]
    exact bot_sup_eq _
  rw [hwalk, hexpand]
  decide

end Kryos.Types.CapEngine

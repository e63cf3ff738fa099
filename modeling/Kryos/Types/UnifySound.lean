import Mathlib
import Kryos.Lib.ListRel
import Kryos.Types.Unify

/-!
# Unification keeps the substitution solved

The substitution is triangular: a variable gets bound to a resolved type, whose variables may get
bound later. `Resolves` is resolution without the limit on the nodes. It is total as long as no
variable comes back to itself through the bindings (`Acyclic`), which the occurs check keeps up.

A binding is never changed. So a type that is resolved further is resolved through what it was
resolved to before (`Resolves.comp`), and an equation that was solved stays solved.
-/

namespace Kryos.Types

open Relation

abbrev Subst := AList fun _ : TyVarId => Ty

namespace Engine

variable {S S' : Subst} {t t' : Ty}

/-! ### Resolution without the limit -/

/-- Some budget is enough to resolve `t`, and the result is `t'`. -/
def Resolves (S : Subst) (t t' : Ty) : Prop :=
  ∃ n budget rest, resolveBounded S n t budget = some (t', rest)

theorem resolveParts_mono {f g : Ty → Nat → Option (Ty × Nat)} {k : Nat}
    (h : ∀ t budget t' rest, f t budget = some (t', rest) →
      g t (budget + k) = some (t', rest + k)) :
    ∀ (ts : List Ty) (budget : Nat) (ts' : List Ty) (rest : Nat),
      resolveParts f ts budget = some (ts', rest) →
        resolveParts g ts (budget + k) = some (ts', rest + k)
  | [], budget, ts', rest, hr => by
    obtain ⟨rfl, rfl⟩ := Prod.mk.inj (Option.some.inj hr)
    rfl
  | t :: ts, budget, ts', rest, hr => by
    rw [resolveParts] at hr
    split at hr
    · cases hr
    · rename_i t' budget' ht
      split at hr
      · cases hr
      · rename_i ts'' budget'' hts
        obtain ⟨rfl, rfl⟩ := Prod.mk.inj (Option.some.inj hr)
        rw [resolveParts, h t budget t' budget' ht]
        dsimp only
        rw [resolveParts_mono h ts budget' ts'' budget'' hts]

variable {id : TyVarId}

variable {n budget : Nat}

theorem resolveBounded_bound {r : Ty} (hid : S.lookup id = some r) :
    resolveBounded S (n + 1) (.var id) (budget + 1) = resolveBounded S n r budget := by
  rw [resolveBounded, hid]

theorem resolveBounded_unbound (hid : S.lookup id = none) :
    resolveBounded S (n + 1) (.var id) (budget + 1) = some (.var id, budget) := by
  rw [resolveBounded, hid]

theorem resolveBounded_parts (ht : t.isVar = false) :
    resolveBounded S (n + 1) t (budget + 1) =
      (resolveParts (resolveBounded S n) t.children budget).map fun r => (t.rebuild r.1, r.2) := by
  rw [resolveBounded]
  · cases resolveParts (resolveBounded S n) t.children budget with
    | none => rfl
    | some => rfl
  · rintro id rfl
    cases ht

theorem resolveBounded_zero : resolveBounded S n t 0 = none := by
  cases n with
  | zero => rfl
  | succ => cases t <;> rfl

/-- A larger budget, and a larger depth, change nothing but what is left. -/
theorem resolveBounded_mono {m : Nat} (hnm : n ≤ m) (k : Nat) {rest : Nat}
    (h : resolveBounded S n t budget = some (t', rest)) :
    resolveBounded S m t (budget + k) = some (t', rest + k) := by
  induction n generalizing m t t' budget rest with
  | zero => cases h
  | succ n ih =>
    obtain ⟨m, rfl⟩ := Nat.exists_eq_succ_of_ne_zero (by omega : m ≠ 0)
    have hnm : n ≤ m := by omega
    obtain _ | budget := budget
    · rw [resolveBounded_zero] at h
      cases h
    rw [Nat.add_right_comm]
    cases hvar : t.isVar with
    | false =>
      rw [resolveBounded_parts hvar, Option.map_eq_some_iff] at h ⊢
      obtain ⟨⟨parts, rest'⟩, hparts, heq⟩ := h
      obtain ⟨rfl, rfl⟩ := Prod.mk.inj heq
      have hparts' := resolveParts_mono (g := resolveBounded S m)
        (fun t budget t' rest h => ih hnm h) _ _ _ _ hparts
      exact ⟨(parts, rest' + k), hparts', rfl⟩
    | true =>
      obtain ⟨id, rfl⟩ := Ty.isVar_iff.mp hvar
      cases hid : S.lookup id with
      | some r =>
        rw [resolveBounded_bound hid] at h ⊢
        exact ih hnm h
      | none =>
        rw [resolveBounded_unbound hid] at h ⊢
        obtain ⟨rfl, rfl⟩ := Prod.mk.inj (Option.some.inj h)
        rfl

theorem Resolves.unique {t₁ t₂ : Ty} (h₁ : Resolves S t t₁) (h₂ : Resolves S t t₂) : t₁ = t₂ := by
  obtain ⟨n₁, b₁, r₁, h₁⟩ := h₁
  obtain ⟨n₂, b₂, r₂, h₂⟩ := h₂
  have h₁' := resolveBounded_mono (le_max_left n₁ n₂) b₂ h₁
  have h₂' := resolveBounded_mono (le_max_right n₁ n₂) b₁ h₂
  rw [Nat.add_comm b₂ b₁, h₁'] at h₂'
  exact (Prod.mk.inj (Option.some.inj h₂')).1

theorem Resolves.of_resolve {e : Engine} (h : e.resolve t = some t') :
    Resolves e.substitutions t t' := by
  obtain ⟨r, hr, rfl⟩ := Option.map_eq_some_iff.mp h
  exact ⟨_, _, r.2, hr⟩

theorem Resolves.succ (h : Resolves S t t') :
    ∃ n budget rest, resolveBounded S (n + 1) t (budget + 1) = some (t', rest) := by
  obtain ⟨n, budget, rest, h⟩ := h
  exact ⟨n, budget, rest + 1, resolveBounded_mono (Nat.le_succ n) 1 h⟩

theorem resolves_bound {r : Ty} (hid : S.lookup id = some r) :
    Resolves S (.var id) t' ↔ Resolves S r t' := by
  constructor
  · intro h
    obtain ⟨n, budget, rest, h⟩ := h.succ
    rw [resolveBounded_bound hid] at h
    exact ⟨n, budget, rest, h⟩
  · rintro ⟨n, budget, rest, h⟩
    exact ⟨n + 1, budget + 1, rest, (resolveBounded_bound hid).trans h⟩

theorem resolves_unbound (hid : S.lookup id = none) : Resolves S (.var id) t' ↔ t' = .var id := by
  constructor
  · intro h
    obtain ⟨n, budget, rest, h⟩ := h.succ
    rw [resolveBounded_unbound hid] at h
    exact (Prod.mk.inj (Option.some.inj h)).1.symm
  · rintro rfl
    exact ⟨1, 1, 0, resolveBounded_unbound hid⟩

theorem forall₂_of_resolveParts {n : Nat} : ∀ {ts ts' : List Ty} {budget rest : Nat},
    resolveParts (resolveBounded S n) ts budget = some (ts', rest) →
      List.Forall₂ (fun t t' => ∃ budget rest, resolveBounded S n t budget = some (t', rest)) ts ts'
  | [], ts', budget, rest, h => by
    obtain ⟨rfl, _⟩ := Prod.mk.inj (Option.some.inj h)
    exact .nil
  | t :: ts, ts', budget, rest, h => by
    rw [resolveParts] at h
    split at h
    · cases h
    · rename_i t' budget' ht
      split at h
      · cases h
      · rename_i ts'' budget'' hts
        obtain ⟨rfl, _⟩ := Prod.mk.inj (Option.some.inj h)
        exact .cons ⟨budget, budget', ht⟩ (forall₂_of_resolveParts hts)

theorem exists_resolveParts {ts ts' : List Ty} (h : List.Forall₂ (Resolves S) ts ts') :
    ∃ n budget rest, resolveParts (resolveBounded S n) ts budget = some (ts', rest) := by
  induction h with
  | nil => exact ⟨0, 0, 0, rfl⟩
  | cons ht _ ih =>
    obtain ⟨n₁, b₁, r₁, ht⟩ := ht
    obtain ⟨n₂, b₂, r₂, hts⟩ := ih
    refine ⟨max n₁ n₂, b₁ + b₂, r₂ + r₁, ?_⟩
    have hts' := resolveParts_mono (g := resolveBounded S (max n₁ n₂))
      (fun t budget t' rest h => resolveBounded_mono (le_max_right n₁ n₂) r₁ h) _ _ _ _ hts
    rw [resolveParts, resolveBounded_mono (le_max_left n₁ n₂) b₂ ht]
    dsimp only
    rw [Nat.add_comm r₁ b₂, hts']

theorem resolves_parts (ht : t.isVar = false) :
    Resolves S t t' ↔ ∃ parts, List.Forall₂ (Resolves S) t.children parts ∧ t' = t.rebuild parts := by
  constructor
  · intro h
    obtain ⟨n, budget, rest, h⟩ := h.succ
    rw [resolveBounded_parts ht, Option.map_eq_some_iff] at h
    obtain ⟨⟨parts, _⟩, hparts, heq⟩ := h
    refine ⟨parts, ?_, (Prod.mk.inj heq).1.symm⟩
    exact (forall₂_of_resolveParts hparts).imp fun _ _ ⟨b, r, h⟩ => ⟨n, b, r, h⟩
  · rintro ⟨parts, hparts, rfl⟩
    obtain ⟨n, budget, rest, h⟩ := exists_resolveParts hparts
    refine ⟨n + 1, budget + 1, rest, ?_⟩
    rw [resolveBounded_parts ht, h]
    rfl

/-- Induction over a resolution. -/
theorem resolves_induction {motive : Ty → Ty → Prop}
    (bound : ∀ id r t', S.lookup id = some r → Resolves S r t' → motive r t' → motive (.var id) t')
    (unbound : ∀ id, S.lookup id = none → motive (.var id) (.var id))
    (parts : ∀ t ts, t.isVar = false → List.Forall₂ (Resolves S) t.children ts →
      List.Forall₂ motive t.children ts → motive t (t.rebuild ts))
    (h : Resolves S t t') : motive t t' := by
  obtain ⟨n, budget, rest, h⟩ := h
  induction n generalizing t t' budget rest with
  | zero => cases h
  | succ n ih =>
    obtain _ | budget := budget
    · rw [resolveBounded_zero] at h
      cases h
    cases hvar : t.isVar with
    | false =>
      rw [resolveBounded_parts hvar, Option.map_eq_some_iff] at h
      obtain ⟨⟨ts, rest'⟩, hts, heq⟩ := h
      obtain ⟨rfl, _⟩ := Prod.mk.inj heq
      have hts := forall₂_of_resolveParts hts
      exact parts t ts hvar (hts.imp fun _ _ ⟨b, r, h⟩ => ⟨n, b, r, h⟩)
        (hts.imp fun _ _ ⟨b, r, h⟩ => ih b r h)
    | true =>
      obtain ⟨id, rfl⟩ := Ty.isVar_iff.mp hvar
      cases hid : S.lookup id with
      | some r =>
        rw [resolveBounded_bound hid] at h
        exact bound id r t' hid ⟨n, budget, rest, h⟩ (ih budget rest h)
      | none =>
        rw [resolveBounded_unbound hid] at h
        obtain ⟨rfl, _⟩ := Prod.mk.inj (Option.some.inj h)
        exact unbound id hid

/-- No variable of the type has a binding. -/
def IsResolved (S : Subst) (t : Ty) : Prop :=
  ∀ id, Ty.Occurs id t → S.lookup id = none

theorem IsResolved.part (h : IsResolved S t) {c : Ty} (hc : c ∈ t.children) : IsResolved S c :=
  fun id hid => h id (.part hc hid)

theorem Resolves.isResolved (h : Resolves S t t') : IsResolved S t' := by
  refine resolves_induction (motive := fun _ t' => IsResolved S t') ?_ ?_ ?_ h
  · intro id r t' hid hr ih
    exact ih
  · intro id hid id' h
    rwa [← Ty.occurs_var_iff.mp h]
  · intro t ts ht hts ih id h
    rw [Ty.occurs_iff (Ty.ne_var_of_isVar (Ty.isVar_rebuild ht ts)),
      Ty.children_rebuild hts.length_eq.symm] at h
    obtain ⟨c, hc, hocc⟩ := h
    obtain ⟨_, _, hresolved⟩ := ListRel.exists_mem_left ih hc
    exact hresolved id hocc

theorem IsResolved.resolves (h : IsResolved S t) : Resolves S t t := by
  induction t using Ty.parts_induction with
  | _ t ih =>
    cases hvar : t.isVar with
    | false =>
      refine (resolves_parts hvar).mpr ⟨t.children, ?_, t.rebuild_children.symm⟩
      exact List.forall₂_same.mpr fun c hc => ih c hc (h.part hc)
    | true =>
      obtain ⟨id, rfl⟩ := Ty.isVar_iff.mp hvar
      exact (resolves_unbound (h id .var)).mpr rfl

/-! ### More bindings -/

/-- The bindings of `S` are among those of `S'`. -/
def Extends (S S' : Subst) : Prop :=
  ∀ id t, S.lookup id = some t → S'.lookup id = some t

/-- Resolving further: what `t` resolved to before resolves to what `t` resolves to now. -/
theorem Resolves.comp (hext : Extends S S') {t₁ t₂ : Ty} (h₁ : Resolves S t t₁)
    (h₂ : Resolves S' t₁ t₂) : Resolves S' t t₂ := by
  refine resolves_induction
    (motive := fun t t₁ => ∀ t₂, Resolves S' t₁ t₂ → Resolves S' t t₂) ?_ ?_ ?_ h₁ t₂ h₂
  · intro id r t₁ hid _ ih t₂ h₂
    exact (resolves_bound (hext id r hid)).mpr (ih t₂ h₂)
  · intro id hid t₂ h₂
    exact h₂
  · intro t ts ht hts ih t₂ h₂
    rw [resolves_parts (Ty.isVar_rebuild ht ts), Ty.children_rebuild hts.length_eq.symm] at h₂
    obtain ⟨ts₂, hts₂, rfl⟩ := h₂
    have hlen : ts₂.length = t.children.length := (hts.length_eq.trans hts₂.length_eq).symm
    rw [Ty.rebuild_rebuild hts.length_eq.symm hlen]
    exact (resolves_parts ht).mpr ⟨ts₂, ListRel.comp (fun _ _ _ h h₂ => h _ h₂) ih hts₂, rfl⟩

/-! ### Cycles -/

/-- The binding of `v` mentions `w`. -/
def Uses (S : Subst) (v w : TyVarId) : Prop :=
  ∃ t, S.lookup v = some t ∧ Ty.Occurs w t

/-- Following the bindings comes to an end. -/
def Acyclic (S : Subst) : Prop :=
  WellFounded fun w v => Uses S v w

theorem acyclic_empty : Acyclic ∅ :=
  ⟨fun v => ⟨v, fun _ ⟨_, h, _⟩ => by cases h⟩⟩

/-- No variable comes back to itself through the bindings. -/
theorem Acyclic.not_cycle (h : Acyclic S) (v : TyVarId) : ¬ TransGen (Uses S) v v := by
  intro hv
  have hswap : TransGen (Function.swap (Uses S)) v v := transGen_swap.mpr hv
  exact h.transGen.irrefl.irrefl v hswap

theorem exists_resolves_of_vars (h : ∀ id, Ty.Occurs id t → ∃ t', Resolves S (.var id) t') :
    ∃ t', Resolves S t t' := by
  induction t using Ty.parts_induction with
  | _ t ih =>
    cases hvar : t.isVar with
    | true =>
      obtain ⟨id, rfl⟩ := Ty.isVar_iff.mp hvar
      exact h id .var
    | false =>
      have hparts : ∀ c ∈ t.children, ∃ c', Resolves S c c' :=
        fun c hc => ih c hc fun id hid => h id (.part hc hid)
      obtain ⟨ts, hts⟩ := ListRel.exists_of_forall_mem hparts
      exact ⟨_, (resolves_parts hvar).mpr ⟨ts, hts, rfl⟩⟩

/-- Every type has a resolution, given a large enough budget. -/
theorem Acyclic.exists_resolves (h : Acyclic S) (t : Ty) : ∃ t', Resolves S t t' := by
  have hvar : ∀ id, ∃ t', Resolves S (.var id) t' := by
    intro id
    induction id using h.induction with
    | _ id ih =>
      cases hid : S.lookup id with
      | none => exact ⟨_, (resolves_unbound hid).mpr rfl⟩
      | some r =>
        obtain ⟨t', ht'⟩ := exists_resolves_of_vars fun w hw => ih w ⟨r, hid, hw⟩
        exact ⟨t', (resolves_bound hid).mpr ht'⟩
  exact exists_resolves_of_vars fun id _ => hvar id

/-- A variable that has no binding gets one, and everything it mentions has none. -/
theorem Acyclic.insert (h : Acyclic S) (ht : IsResolved S t) (hocc : ¬ Ty.Occurs id t) :
    Acyclic (S.insert id t) := by
  have hsink : ∀ w, Ty.Occurs w t → Acc (fun w v => Uses (S.insert id t) v w) w := by
    intro w hw
    refine ⟨w, fun u ⟨r, hr, _⟩ => ?_⟩
    have hne : w ≠ id := by
      rintro rfl
      exact hocc hw
    rw [AList.lookup_insert_ne hne, ht w hw] at hr
    cases hr
  refine ⟨fun v => ?_⟩
  induction v using h.induction with
  | _ v ih =>
    refine ⟨v, fun w ⟨r, hr, hw⟩ => ?_⟩
    by_cases hv : v = id
    · subst hv
      rw [AList.lookup_insert] at hr
      obtain rfl := Option.some.inj hr
      exact hsink w hw
    · rw [AList.lookup_insert_ne hv] at hr
      exact ih w ⟨r, hr, hw⟩

/-! ### Binding a variable -/

theorem forall₂_mapParts {β : Type} {P : Ty → Ty → Prop} {parts : List Ty}
    {f : (c : Ty) → c ∈ parts → β → Ty × β} (h : ∀ c hc σ, P c (f c hc σ).1) (σ : β) :
    List.Forall₂ P parts (mapParts parts f σ).1 := by
  induction parts generalizing σ with
  | nil => exact .nil
  | cons c cs ih => exact .cons (h c _ σ) (ih (fun d hd => h d _) _)

/-- The rows change, and the variables of the type do not. -/
theorem occurs_generalizeRows {keep : Bool} {σ : CapEngine} :
    Ty.Occurs id (generalizeRows keep t σ).1 ↔ Ty.Occurs id t := by
  induction t using Ty.parts_induction generalizing σ with
  | _ t ih =>
    rw [generalizeRows.eq_def]
    split
    · exact Iff.rfl
    · rename_i hfn
      split
      · rename_i params ret caps
        have hret := ih ret (List.mem_append_right _ (List.mem_singleton_self ret)) (σ := σ)
        rw [Ty.occurs_iff (Ty.ne_var_of_isVar rfl), Ty.occurs_iff (Ty.ne_var_of_isVar rfl)]
        show (∃ c ∈ params ++ [_], _) ↔ ∃ c ∈ params ++ [_], _
        simp only [List.mem_append, List.mem_singleton, or_and_right, exists_or, exists_eq_left, hret]
      · have hvar : t.isVar = false := by
          cases t with
          | var id =>
            rw [Ty.typeHasFn] at hfn
            exact absurd rfl hfn
          | _ => rfl
        have hparts := forall₂_mapParts (P := fun c c' => Ty.Occurs id c' ↔ Ty.Occurs id c)
          (fun c hc σ => ih c hc (σ := σ)) σ
        show Ty.Occurs id (t.rebuild _) ↔ _
        rw [Ty.occurs_iff (Ty.ne_var_of_isVar (Ty.isVar_rebuild hvar _)),
          Ty.occurs_iff (Ty.ne_var_of_isVar hvar), Ty.children_rebuild hparts.length_eq.symm]
        exact ListRel.exists_mem_iff hparts

theorem eq_some_false_of_foldl {g : Ty → Option Bool} {cs : List Ty} {found : Option Bool}
    (h : cs.foldl (fun found c => found.bind fun b => if b then some true else g c) found =
      some false) : found = some false ∧ ∀ c ∈ cs, g c = some false := by
  induction cs generalizing found with
  | nil => exact ⟨h, nofun⟩
  | cons c cs ih =>
    obtain ⟨hfound, hcs⟩ := ih h
    obtain ⟨b, rfl, hc⟩ := Option.bind_eq_some_iff.mp hfound
    cases b with
    | true => cases hc
    | false => exact ⟨rfl, List.forall_mem_cons.mpr ⟨hc, hcs⟩⟩

/-- The occurs check looks through the bindings. -/
theorem not_occurs_of_occursIn {e : Engine} (h : e.occursIn id n t = some false)
    (ht : Resolves e.substitutions t t') : ¬ Ty.Occurs id t' := by
  induction n generalizing t t' with
  | zero => cases h
  | succ n ih =>
    rw [occursIn] at h
    split at h
    · cases h
    · rename_i other hother
      obtain rfl := (Resolves.of_resolve hother).unique ht
      rw [Ty.occurs_var_iff]
      simpa using h
    · rename_i t₁ hne ht₁
      obtain rfl := (Resolves.of_resolve ht₁).unique ht
      rw [Ty.occurs_iff fun v hv => hne v (hv ▸ rfl)]
      rintro ⟨c, hc, hocc⟩
      exact ih ((eq_some_false_of_foldl h).2 c hc) (ht.isResolved.part hc).resolves hocc

/-! ### What a call does to the substitution -/

variable {e e' : Engine}

/-- A step leaves the substitution alone, or gives a binding to a variable that had none. -/
theorem Step.substitutions (h : Step e e') : e'.substitutions = e.substitutions ∨
    ∃ id t, e.substitutions.lookup id = none ∧ IsResolved e.substitutions t ∧ ¬ Ty.Occurs id t ∧
      e'.substitutions = e.substitutions.insert id t := by
  cases h with
  | flag => exact .inl rfl
  | rows c1 c2 =>
    obtain ⟨cap, hcap⟩ := e.unifyRows_eq c1 c2
    rw [hcap]
    exact .inl rfl
  | bind ha hb _ h =>
    rename_i a b t id _
    obtain ⟨hocc, varBounds, rfl⟩ := bindVar_done h
    have hid := (Resolves.of_resolve ha).isResolved id .var
    have ht := (Resolves.of_resolve hb).isResolved
    refine .inr ⟨id, _, hid, ?_, ?_, rfl⟩
    · intro w hw
      exact ht w (occurs_generalizeRows.mp hw)
    · rw [occurs_generalizeRows]
      exact not_occurs_of_occursIn hocc ht.resolves

theorem Extends.refl (S : Subst) : Extends S S := fun _ _ h => h

theorem Extends.trans {S₁ S₂ S₃ : Subst} (h : Extends S₁ S₂) (h' : Extends S₂ S₃) :
    Extends S₁ S₃ := fun id t ht => h' id t (h id t ht)

theorem extends_insert (h : S.lookup id = none) : Extends S (S.insert id t) := by
  intro w r hw
  have hne : w ≠ id := by
    rintro rfl
    rw [h] at hw
    cases hw
  rwa [AList.lookup_insert_ne hne]

/-- What holds of the substitution over any number of steps. -/
theorem steps_extends (h : ReflTransGen Step e e') : Extends e.substitutions e'.substitutions := by
  induction h with
  | refl => exact Extends.refl _
  | tail _ hstep ih =>
    refine ih.trans ?_
    rcases hstep.substitutions with heq | ⟨id, t, hid, _, _, heq⟩
    · rw [heq]
      exact Extends.refl _
    · rw [heq]
      exact extends_insert hid

theorem steps_acyclic (h : ReflTransGen Step e e') (he : Acyclic e.substitutions) :
    Acyclic e'.substitutions := by
  induction h with
  | refl => exact he
  | tail _ hstep ih =>
    rcases hstep.substitutions with heq | ⟨id, t, _, ht, hocc, heq⟩
    · rwa [heq]
    · rw [heq]
      exact ih.insert ht hocc

/-- Two types are equal under the bindings. -/
def Solved (S : Subst) (a b : Ty) : Prop :=
  ∃ t, Resolves S a t ∧ Resolves S b t

variable {a b : Ty}

theorem Solved.extends (h : Solved S a b) (hext : Extends S S') (hS' : Acyclic S') :
    Solved S' a b := by
  obtain ⟨t, ha, hb⟩ := h
  obtain ⟨t', ht'⟩ := hS'.exists_resolves t
  exact ⟨t', ha.comp hext ht', hb.comp hext ht'⟩

/-! ### The flag -/

variable {f : Ty → Ty → Engine → UnifyResult}

theorem unifyAll_flag
    (hf : ∀ a b e e', (f a b e).engine = some e' → e'.contravariant = e.contravariant)
    (pairs : List (Ty × Ty)) (e e' : Engine) (h : (unifyAll f pairs e).engine = some e') :
    e'.contravariant = e.contravariant := by
  induction pairs generalizing e with
  | nil =>
    obtain rfl := Option.some.inj h
    rfl
  | cons p pairs ih =>
    rw [unifyAll] at h
    split at h
    · rename_i e₁ he₁
      exact (ih e₁ h).trans (hf p.1 p.2 e e₁ (by rw [he₁]; rfl))
    · exact hf p.1 p.2 e e' h

theorem unifyParams_flag {params : List (Ty × Ty)} (h : (unifyParams f params e).engine = some e') :
    e'.contravariant = e.contravariant := by
  rw [unifyParams] at h
  cases hr : unifyAll f params { e with contravariant := !e.contravariant } with
  | done e₁ | failed error e₁ =>
    rw [hr] at h
    obtain rfl := Option.some.inj h
    rfl
  | aborted | outOfFuel =>
    rw [hr] at h
    cases h

theorem perform_flag
    (hf : ∀ a b e e', (f a b e).engine = some e' → e'.contravariant = e.contravariant) {task : Task}
    (h : (e.perform f task).engine = some e') : e'.contravariant = e.contravariant := by
  cases task with
  | nothing | fail =>
    obtain rfl := Option.some.inj h
    rfl
  | bind id t =>
    rw [perform] at h
    cases hr : e.bindVar id t with
    | done e₁ =>
      rw [hr] at h
      obtain rfl := Option.some.inj h
      obtain ⟨_, varBounds, rfl⟩ := bindVar_done hr
      rfl
    | failed error e₁ =>
      rw [hr] at h
      obtain rfl := Option.some.inj h
      rw [bindVar_failed hr]
    | aborted | outOfFuel =>
      rw [hr] at h
      cases h
  | parts pairs => exact unifyAll_flag hf pairs e e' h
  | function params ret rows =>
    rw [perform] at h
    split at h
    · rename_i e₁ he₁
      have hparams : e₁.contravariant = e.contravariant :=
        unifyParams_flag (by rw [he₁]; rfl)
      split at h
      · rename_i e₂ he₂
        obtain rfl := Option.some.inj h
        have hret := hf _ _ e₁ e₂ (by rw [he₂]; rfl)
        rw [← hparams, ← hret, flowRows_flag]
      · exact (hf _ _ e₁ e' h).trans hparams
    · exact unifyParams_flag h

/-- The flag has its old value after every call, also after one that fails inside a function
type. -/
theorem unify_flag (n : Nat) (a b : Ty) (e e' : Engine) (h : (unify n a b e).engine = some e') :
    e'.contravariant = e.contravariant := by
  induction n generalizing a b e e' with
  | zero => cases h
  | succ n ih =>
    rw [unify] at h
    split at h
    · split at h
      · obtain rfl := Option.some.inj h
        rfl
      · split at h
        · obtain rfl := Option.some.inj h
          rfl
        · exact perform_flag ih h
    · cases h

/-! ### Solving an equation -/

theorem decideCoercion_invariant (ha : a.invariantHead = true) (hb : b.invariantHead = true) :
    ∃ error, e.decideCoercion a b = .fail error := by
  have hint : ∀ {t : Ty}, t.invariantHead = true → t.isInteger ≠ true := by
    intro t ht hint
    cases t with
    | prim p =>
      rw [Ty.invariantHead, hint] at ht
      cases ht
    | _ => cases hint
  rw [decideCoercion.eq_def]
  dsimp only
  split
  · cases hb
  · cases ha
  · split_ifs with hnever hwiden hsize hsize'
    · rcases hnever with rfl | rfl
      · cases ha
      · cases hb
    · rcases hwiden with h | h
      · exact absurd (Ty.isInteger_of_isIntWidening h) (hint ha)
      · exact absurd (Ty.isInteger_of_isIntWidening h) (hint hb)
    · exact absurd hsize.2 (hint hb)
    · exact absurd hsize'.2 (hint ha)
    · exact ⟨_, rfl⟩

/-- The same constructor, up to the parts. -/
structure SameHead (a b : Ty) : Prop where
  left : a.isVar = false
  right : b.isVar = false
  length_eq : a.children.length = b.children.length
  rebuild_eq : ∀ ts, ts.length = a.children.length → a.rebuild ts = b.rebuild ts

theorem sameHead_of_one {x y : Ty} (ha : a.children = [x]) (hb : b.children = [y])
    (left : a.isVar = false) (right : b.isVar = false) (h : ∀ c, a.rebuild [c] = b.rebuild [c]) :
    SameHead a b := by
  refine ⟨left, right, by rw [ha, hb]; rfl, fun ts hts => ?_⟩
  rw [ha] at hts
  obtain ⟨c, rfl⟩ := List.length_eq_one_iff.mp hts
  exact h c

theorem sameHead_of_two {x x' y y' : Ty} (ha : a.children = [x, x']) (hb : b.children = [y, y'])
    (left : a.isVar = false) (right : b.isVar = false)
    (h : ∀ c d, a.rebuild [c, d] = b.rebuild [c, d]) : SameHead a b := by
  refine ⟨left, right, by rw [ha, hb]; rfl, fun ts hts => ?_⟩
  rw [ha] at hts
  obtain ⟨c, d, rfl⟩ := List.length_eq_two.mp hts
  exact h c d

/-- Two invariant types that differ are unified by a binding, or part by part, or not at all. -/
theorem decide_invariant (ha : a.invariantHead = true) (hb : b.invariantHead = true) :
    (∃ id t, e.decide a b = .bind id t) ∨ (∃ error, e.decide a b = .fail error) ∨
      (e.decide a b = .parts (a.children.zip b.children) ∧ SameHead a b) := by
  have hcoerce := decideCoercion_invariant (e := e) ha hb
  fun_cases decide e a b
  case case1 | case2 => exact .inl ⟨_, _, rfl⟩
  case case4 => exact .inr (.inl ⟨_, rfl⟩)
  case case5 h => exact .inr (.inr ⟨rfl, rfl, rfl, not_not.mp h, fun _ _ => rfl⟩)
  case case6 | case9 =>
    exact .inr (.inr ⟨rfl, sameHead_of_two rfl rfl rfl rfl fun _ _ => rfl⟩)
  case case7 | case8 | case26 | case28 | case29 | case30 =>
    exact .inr (.inr ⟨rfl, sameHead_of_one rfl rfl rfl rfl fun _ => rfl⟩)
  case case18 h | case21 h =>
    obtain ⟨rfl, hlen⟩ := h
    exact .inr (.inr ⟨rfl, rfl, rfl, hlen, fun _ _ => rfl⟩)
  case case20 h =>
    rcases h.2.1 with rfl | rfl
    all_goals cases ha
  all_goals first | exact .inr (.inl hcoerce) | cases ha <;> done | cases hb

/-- In `S`, the type stands for an invariant type. -/
def InvariantIn (S : Subst) (t : Ty) : Prop :=
  ∃ t', Resolves S t t' ∧ t'.Invariant

theorem InvariantIn.part (h : IsResolved S t) (ht : t.Invariant) {c : Ty} (hc : c ∈ t.children) :
    InvariantIn S c := by
  cases ht with
  | mk _ parts => exact ⟨c, (h.part hc).resolves, parts c hc⟩

/-- An invariant type stays one when its variables get bound to invariant types. -/
theorem invariantIn_of_vars (ht : t.Invariant)
    (h : ∀ id, Ty.Occurs id t → InvariantIn S (.var id)) : InvariantIn S t := by
  induction ht with
  | @mk t head _ ih =>
    cases hvar : t.isVar with
    | true =>
      obtain ⟨id, rfl⟩ := Ty.isVar_iff.mp hvar
      exact h id .var
    | false =>
      have hparts : ∀ c ∈ t.children, InvariantIn S c :=
        fun c hc => ih c hc fun id hid => h id (.part hc hid)
      obtain ⟨ts, hts⟩ := ListRel.exists_of_forall_mem hparts
      have hresolves : List.Forall₂ (Resolves S) t.children ts := hts.imp fun _ _ h => h.1
      refine ⟨t.rebuild ts, (resolves_parts hvar).mpr ⟨ts, hresolves, rfl⟩, ?_⟩
      refine .mk (by rwa [Ty.invariantHead_rebuild]) fun c hc => ?_
      rw [Ty.children_rebuild hts.length_eq.symm] at hc
      obtain ⟨_, _, hc⟩ := ListRel.exists_mem_left hts hc
      exact hc.2

/-- What a call does that solves an equation between invariant types. -/
structure Solves (S S' : Subst) (a b : Ty) : Prop where
  keeps : ∀ t, InvariantIn S t → InvariantIn S' t
  solved : Solved S' a b

theorem Solved.symm (h : Solved S a b) : Solved S b a := by
  obtain ⟨t, ha, hb⟩ := h
  exact ⟨t, hb, ha⟩

theorem generalizeRows_invariant {keep : Bool} {σ : CapEngine} (ht : t.Invariant) :
    generalizeRows keep t σ = (t, σ) := by
  rw [generalizeRows.eq_def, if_pos ht.typeHasFn]

theorem solves_bind (ha : Resolves S a (.var id)) (hb : Resolves S b t) (ht : t.Invariant)
    (hocc : ¬ Ty.Occurs id t) : Solves S (S.insert id t) a b := by
  have hext : Extends S (S.insert id t) := extends_insert (ha.isResolved id .var)
  have hresolved : IsResolved (S.insert id t) t := by
    intro w hw
    have hne : w ≠ id := by
      rintro rfl
      exact hocc hw
    rw [AList.lookup_insert_ne hne]
    exact hb.isResolved w hw
  have hid : Resolves (S.insert id t) (.var id) t :=
    (resolves_bound (AList.lookup_insert S)).mpr hresolved.resolves
  refine ⟨fun x hx => ?_, t, ha.comp hext hid, hb.comp hext hresolved.resolves⟩
  obtain ⟨x', hx', hinv⟩ := hx
  obtain ⟨x'', hx'', hinv'⟩ : InvariantIn (S.insert id t) x' := by
    refine invariantIn_of_vars hinv fun w hw => ?_
    by_cases hwid : w = id
    · subst hwid
      exact ⟨t, hid, ht⟩
    · have hw' : (S.insert id t).lookup w = none := by
        rw [AList.lookup_insert_ne hwid]
        exact hx'.isResolved w hw
      exact ⟨.var w, (resolves_unbound hw').mpr rfl, .mk rfl nofun⟩
  exact ⟨x'', hx'.comp hext hx'', hinv'⟩

/-- A call of `f` that succeeds solves its equation. -/
def SolvesAll (f : Ty → Ty → Engine → UnifyResult) : Prop :=
  ∀ a b e e', Acyclic e.substitutions → InvariantIn e.substitutions a →
    InvariantIn e.substitutions b → f a b e = .done e' →
      Solves e.substitutions e'.substitutions a b

theorem unifyAll_solves (hf : SolvesAll f) (hsteps : Steps f) {pairs : List (Ty × Ty)}
    (hacyclic : Acyclic e.substitutions)
    (hpairs : ∀ p ∈ pairs, InvariantIn e.substitutions p.1 ∧ InvariantIn e.substitutions p.2)
    (h : unifyAll f pairs e = .done e') :
    (∀ t, InvariantIn e.substitutions t → InvariantIn e'.substitutions t) ∧
      ∀ p ∈ pairs, Solved e'.substitutions p.1 p.2 := by
  induction pairs generalizing e with
  | nil =>
    obtain rfl := UnifyResult.done.inj h
    exact ⟨fun _ ht => ht, nofun⟩
  | cons p pairs ih =>
    obtain ⟨hp, hpairs⟩ := List.forall_mem_cons.mp hpairs
    rw [unifyAll] at h
    split at h
    · rename_i e₁ he₁
      have hfirst := hf p.1 p.2 e e₁ hacyclic hp.1 hp.2 he₁
      have hacyclic₁ : Acyclic e₁.substitutions :=
        steps_acyclic (hsteps p.1 p.2 e e₁ (by rw [he₁]; rfl)) hacyclic
      have hrest := steps_unifyAll hsteps pairs e₁ e' (by rw [h]; rfl)
      obtain ⟨hkeeps, hsolved⟩ := ih hacyclic₁
        (fun q hq => ⟨hfirst.keeps _ (hpairs q hq).1, hfirst.keeps _ (hpairs q hq).2⟩) h
      refine ⟨fun t ht => hkeeps t (hfirst.keeps t ht), List.forall_mem_cons.mpr ⟨?_, hsolved⟩⟩
      exact hfirst.solved.extends (steps_extends hrest) (steps_acyclic hrest hacyclic₁)
    · rename_i hdone
      exact absurd h (hdone e')

/-- Two types with the same head are equal when their parts are. -/
theorem solved_of_parts {a' b' : Ty} (hext : Extends S S') (ha : Resolves S a a')
    (hb : Resolves S b b') (hhead : SameHead a' b')
    (h : ∀ p ∈ a'.children.zip b'.children, Solved S' p.1 p.2) : Solved S' a b := by
  obtain ⟨ts, hzip⟩ := ListRel.exists_of_forall_mem h
  have hts : List.Forall₂ (Resolves S') a'.children ts := by
    rw [← List.map_fst_zip hhead.length_eq.le, List.forall₂_map_left_iff]
    exact hzip.imp fun _ _ h => h.1
  have hts' : List.Forall₂ (Resolves S') b'.children ts := by
    rw [← List.map_snd_zip hhead.length_eq.ge, List.forall₂_map_left_iff]
    exact hzip.imp fun _ _ h => h.2
  have hleft : Resolves S' a' (a'.rebuild ts) := (resolves_parts hhead.left).mpr ⟨ts, hts, rfl⟩
  have hright : Resolves S' b' (b'.rebuild ts) := (resolves_parts hhead.right).mpr ⟨ts, hts', rfl⟩
  rw [← hhead.rebuild_eq ts hts.length_eq.symm] at hright
  exact ⟨_, ha.comp hext hleft, hb.comp hext hright⟩

theorem unify_solves (n : Nat) : SolvesAll (unify n) := by
  induction n with
  | zero =>
    intro a b e e' _ _ _ h
    cases h
  | succ n ih =>
    intro a b e e' hacyclic ha hb h
    have hsteps : ReflTransGen Step e e' := unify_steps (n + 1) a b e e' (by rw [h]; rfl)
    rw [unify] at h
    split at h
    · rename_i a' b' ha' hb'
      have ha' := Resolves.of_resolve ha'
      have hb' := Resolves.of_resolve hb'
      obtain ⟨_, hres, hainv⟩ := ha
      obtain rfl := ha'.unique hres
      obtain ⟨_, hres, hbinv⟩ := hb
      obtain rfl := hb'.unique hres
      obtain ⟨hahead, hbhead⟩ : a'.invariantHead = true ∧ b'.invariantHead = true := by
        cases hainv
        cases hbinv
        exact ⟨‹_›, ‹_›⟩
      split at h
      · rename_i herror
        rcases herror with rfl | rfl
        · cases hahead
        · cases hbhead
      split at h
      · rename_i heq
        obtain rfl := UnifyResult.done.inj h
        exact ⟨fun _ ht => ht, a', ha', heq ▸ hb'⟩
      rename_i hne
      rcases decide_invariant (e := e) hahead hbhead with ⟨id, t, htask⟩ | ⟨error, htask⟩ | ⟨htask, hhead⟩
      · rw [htask, perform] at h
        obtain ⟨hocc, varBounds, rfl⟩ := bindVar_done h
        rcases decide_eq_bind htask with ⟨rfl, rfl⟩ | ⟨rfl, rfl⟩
        · have hnot := not_occurs_of_occursIn hocc hb'.isResolved.resolves
          rw [generalizeRows_invariant hbinv]
          exact solves_bind ha' hb' hbinv hnot
        · have hnot := not_occurs_of_occursIn hocc ha'.isResolved.resolves
          rw [generalizeRows_invariant hainv]
          have hsolves := solves_bind hb' ha' hainv hnot
          exact ⟨hsolves.keeps, hsolves.solved.symm⟩
      · rw [htask] at h
        cases h
      · rw [htask, perform] at h
        have hparts : ∀ p ∈ a'.children.zip b'.children,
            InvariantIn e.substitutions p.1 ∧ InvariantIn e.substitutions p.2 := by
          intro p hp
          obtain ⟨hp₁, hp₂⟩ := List.of_mem_zip hp
          exact ⟨.part ha'.isResolved hainv hp₁, .part hb'.isResolved hbinv hp₂⟩
        obtain ⟨hkeeps, hsolved⟩ := unifyAll_solves ih (unify_steps n) hacyclic hparts h
        exact ⟨hkeeps, solved_of_parts (steps_extends hsteps) ha' hb' hhead hsolved⟩
    · cases h

/-! ### Runs -/

/-- A call of `unify`, which succeeds or fails. What else the checker does between two calls leaves
the bindings and the flag alone. -/
inductive UnifyCall : Engine → Engine → Prop
  | unify {e e' : Engine} {n : Nat} {a b : Ty} (h : (unify n a b e).engine = some e') :
      UnifyCall e e'
  | other {e e' : Engine} (h : e'.substitutions = e.substitutions)
      (hflag : e'.contravariant = e.contravariant) : UnifyCall e e'

theorem UnifyCall.extends (h : UnifyCall e e') : Extends e.substitutions e'.substitutions := by
  cases h with
  | unify h => exact steps_extends (unify_steps _ _ _ e e' h)
  | other h =>
    rw [h]
    exact Extends.refl _

theorem UnifyCall.acyclic (h : UnifyCall e e') (he : Acyclic e.substitutions) :
    Acyclic e'.substitutions := by
  cases h with
  | unify h => exact steps_acyclic (unify_steps _ _ _ e e' h) he
  | other h => rwa [h]

theorem UnifyCall.flag (h : UnifyCall e e') : e'.contravariant = e.contravariant := by
  cases h with
  | unify h => exact unify_flag _ _ _ e e' h
  | other _ hflag => exact hflag

theorem run_spec (h : ReflTransGen UnifyCall e e') (he : Acyclic e.substitutions) :
    Acyclic e'.substitutions ∧ Extends e.substitutions e'.substitutions ∧
      e'.contravariant = e.contravariant := by
  induction h with
  | refl => exact ⟨he, Extends.refl _, rfl⟩
  | tail _ hcall ih =>
    obtain ⟨hacyclic, hext, hflag⟩ := ih
    exact ⟨hcall.acyclic hacyclic, hext.trans hcall.extends, hcall.flag.trans hflag⟩

/-- After any calls on a new engine, `e`: no binding is cyclic and every type resolves, the flag has
its first value, what is equal stays equal under all later calls, and a successful call makes two
types equal that stand for invariant types. -/
theorem unify_keeps_substitution (hrun : ReflTransGen UnifyCall Engine.new e)
    (hlater : ReflTransGen UnifyCall e e') :
    (∀ v, ¬ TransGen (Uses e.substitutions) v v) ∧
    (∀ t, ∃ t', Resolves e.substitutions t t') ∧
    (∀ a b, Solved e.substitutions a b → Solved e'.substitutions a b) ∧
    (∀ n a b e₁, unify n a b e = .done e₁ → InvariantIn e.substitutions a →
      InvariantIn e.substitutions b → Solved e₁.substitutions a b) ∧
    e.contravariant = Engine.new.contravariant := by
  obtain ⟨hacyclic, _, hflag⟩ := run_spec hrun acyclic_empty
  obtain ⟨hacyclic', hext, _⟩ := run_spec hlater hacyclic
  refine ⟨hacyclic.not_cycle, hacyclic.exists_resolves, ?_, ?_, hflag⟩
  · intro a b h
    exact h.extends hext hacyclic'
  · intro n a b e₁ h ha hb
    exact (unify_solves n a b e e₁ hacyclic ha hb h).solved

/-- One variable is an `i32` and another one an `i64`. -/
def narrowAndWide : Option Engine :=
  (unify 1 (.var 0) (.prim .i32) Engine.new).engine.bind fun e =>
    (unify 1 (.var 1) (.prim .i64) e).engine

theorem narrowAndWide_run : ∃ e, narrowAndWide = some e ∧ ReflTransGen UnifyCall Engine.new e := by
  have hsome : narrowAndWide.isSome := by decide
  obtain ⟨e, he⟩ := Option.isSome_iff_exists.mp hsome
  obtain ⟨e₁, h₁, h₂⟩ := Option.bind_eq_some_iff.mp he
  exact ⟨e, he, ReflTransGen.single (.unify h₁) |>.tail (.unify h₂)⟩

/-- The engine a call leaves when it reports no mismatch. -/
def doneEngine : UnifyResult → Option Engine
  | .done e => some e
  | _ => none

theorem eq_done_of_doneEngine {r : UnifyResult} {e : Engine} (h : doneEngine r = some e) :
    r = .done e := by
  cases r with
  | done => rw [Option.some.inj h]
  | failed | aborted | outOfFuel => cases h

theorem invariant_var (id : Nat) : (Ty.var id).Invariant := by
  refine .mk rfl ?_
  intro c hc
  cases hc

theorem option_of_variable_is_solved : ∃ e e₁, ReflTransGen UnifyCall Engine.new e ∧
    unify 1 (.var 2) (.option (.var 3)) e = .done e₁ ∧
      Solved e₁.substitutions (.var 2) (.option (.var 3)) := by
  obtain ⟨e, he, hrun⟩ := narrowAndWide_run
  have hunbound : (narrowAndWide.bind fun e =>
      (doneEngine (unify 1 (.var 2) (.option (.var 3)) e)).map fun _ =>
        (e.substitutions.lookup 2, e.substitutions.lookup 3)) = some (none, none) := by
    decide
  rw [he, Option.bind_some] at hunbound
  obtain ⟨e₁, hdone, hlookups⟩ := Option.map_eq_some_iff.mp hunbound
  have he₁ := eq_done_of_doneEngine hdone
  obtain ⟨h₂, h₃⟩ := Prod.mk.inj hlookups
  have hleft : InvariantIn e.substitutions (.var 2) :=
    ⟨_, (resolves_unbound h₂).mpr rfl, invariant_var 2⟩
  have hright : InvariantIn e.substitutions (.option (.var 3)) := by
    refine invariantIn_of_vars (.mk rfl ?_) fun id hid => ?_
    · intro c hc
      obtain rfl := List.mem_singleton.mp hc
      exact invariant_var 3
    · cases hid with
      | part hc hid =>
        obtain rfl := List.mem_singleton.mp hc
        obtain rfl := Ty.occurs_var_iff.mp hid
        exact ⟨_, (resolves_unbound h₃).mpr rfl, invariant_var 3⟩
  obtain ⟨_, _, _, hsolves, _⟩ := unify_keeps_substitution hrun .refl
  exact ⟨e, e₁, hrun, he₁, hsolves 1 _ _ e₁ he₁ hleft hright⟩

/-- Variables that stand for integers of different width unify, and stay different. -/
theorem widened_variables_stay_different : ∃ e e', ReflTransGen UnifyCall Engine.new e ∧
    unify 1 (.var 0) (.var 1) e = .done e' ∧ ¬ Solved e'.substitutions (.var 0) (.var 1) := by
  obtain ⟨e, he, hrun⟩ := narrowAndWide_run
  have hbindings : (narrowAndWide.bind fun e =>
      (doneEngine (unify 1 (.var 0) (.var 1) e)).map fun e' =>
        (e'.substitutions.lookup 0, e'.substitutions.lookup 1)) =
      some (some (.prim .i32), some (.prim .i64)) := by
    decide +kernel
  rw [he, Option.bind_some] at hbindings
  obtain ⟨e', hdone, hlookups⟩ := Option.map_eq_some_iff.mp hbindings
  obtain ⟨hnarrow, hwide⟩ := Prod.mk.inj hlookups
  refine ⟨e, e', hrun, eq_done_of_doneEngine hdone, ?_⟩
  rintro ⟨t, h₀, h₁⟩
  rw [resolves_bound hnarrow] at h₀
  rw [resolves_bound hwide] at h₁
  have hprim : ∀ p, IsResolved e'.substitutions (.prim p) := by
    intro p id hid
    cases hid with
    | part hc => cases hc
  cases (h₀.unique (hprim .i32).resolves).symm.trans (h₁.unique (hprim .i64).resolves)

end Engine

end Kryos.Types

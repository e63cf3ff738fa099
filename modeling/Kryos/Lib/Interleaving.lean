import Mathlib.Logic.Relation
import Mathlib.Logic.Function.Basic

/-!
# Interleavings of atomic steps

A concurrent component is a set of initial states and a partial step function: an action names
the thread that moves and which of its atomic steps it takes, and the step function answers `none`
where that step is not enabled. A run is any finite sequence of enabled actions, so every
interleaving of every number of threads is a run.

Some properties hold only of the runs that avoid a certain race. `RunWhen ok` are the runs each of
whose steps meets `ok` in the state before it; `fun _ _ => True` gives all runs.

## Main results

* `Protocol.RunWhen.invariant` — what every admitted step preserves, every admitted run preserves.
* `Protocol.ReachableWhen.invariant` — with a base case, it holds in every state reached.
* `Protocol.reachableWhen_of_schedule` — a schedule, executed, exhibits a reachable state.
-/

/-- A system of atomic steps: its initial states, and for every action the state it leads to,
`none` where the action is not enabled. -/
structure Protocol (σ α : Type*) where
  Init : σ → Prop
  step : σ → α → Option σ

namespace Protocol

variable {σ α : Type*} (P : Protocol σ α) (ok : σ → α → Prop)

/-- One step of an admitted action. -/
def StepWhen (s s' : σ) : Prop :=
  ∃ a, ok s a ∧ P.step s a = some s'

/-- A run all of whose steps are admitted. -/
def RunWhen : σ → σ → Prop :=
  Relation.ReflTransGen (P.StepWhen ok)

/-- The states reached from an initial state by admitted runs. -/
def ReachableWhen (s : σ) : Prop :=
  ∃ s₀, P.Init s₀ ∧ P.RunWhen ok s₀ s

/-- A run of arbitrary steps. -/
abbrev Run : σ → σ → Prop :=
  P.RunWhen fun _ _ => True

/-- The states reached by arbitrary interleavings. -/
abbrev Reachable : σ → Prop :=
  P.ReachableWhen fun _ _ => True

variable {P} {ok}

/-- **The run rule.** What every admitted step preserves, every admitted run preserves. -/
theorem RunWhen.invariant {I : σ → Prop}
    (hstep : ∀ s a s', I s → ok s a → P.step s a = some s' → I s')
    {s s' : σ} (hrun : P.RunWhen ok s s') (hs : I s) : I s' := by
  induction hrun with
  | refl => exact hs
  | tail _ hst ih =>
    obtain ⟨a, hok, ha⟩ := hst
    exact hstep _ a _ ih hok ha

/-- **The invariant rule.** A property of the initial states that every admitted step preserves
holds in every state an admitted run reaches. -/
theorem ReachableWhen.invariant {I : σ → Prop} (hinit : ∀ s, P.Init s → I s)
    (hstep : ∀ s a s', I s → ok s a → P.step s a = some s' → I s')
    {s : σ} (hs : P.ReachableWhen ok s) : I s := by
  obtain ⟨s₀, h₀, hrun⟩ := hs
  exact hrun.invariant hstep (hinit s₀ h₀)

/-- Extending a reachable state by an admitted run. -/
theorem ReachableWhen.trans {s s' : σ} (hs : P.ReachableWhen ok s) (hrun : P.RunWhen ok s s') :
    P.ReachableWhen ok s' := by
  obtain ⟨s₀, h₀, h⟩ := hs
  exact ⟨s₀, h₀, Relation.ReflTransGen.trans h hrun⟩

/-- The rule for a property that needs an invariant already established: the step may assume it
before and after. -/
theorem ReachableWhen.invariant_of {J I : σ → Prop} (hJ : ∀ s, P.ReachableWhen ok s → J s)
    (hinit : ∀ s, P.Init s → I s)
    (hstep : ∀ s a s', J s → J s' → I s → ok s a → P.step s a = some s' → I s')
    {s : σ} (hs : P.ReachableWhen ok s) : I s := by
  obtain ⟨s₀, h₀, hrun⟩ := hs
  induction hrun with
  | refl => exact hinit s₀ h₀
  | @tail t t' hr hst ih =>
    obtain ⟨a, hok, ha⟩ := hst
    refine hstep t a t' (hJ t ⟨s₀, h₀, hr⟩) (hJ t' ⟨s₀, h₀, hr.tail ⟨a, hok, ha⟩⟩) ih hok ha

/-! ## Guarded actions -/

/-- The system of actions given by a guard and an effect: an action is enabled where its guard
holds, and leads to the one state its effect names. -/
def guarded (Init : σ → Prop) (enabled : σ → α → Prop) [∀ s a, Decidable (enabled s a)]
    (effect : σ → α → σ) : Protocol σ α where
  Init := Init
  step s a := if enabled s a then some (effect s a) else none

theorem guarded_step_eq_some {Init : σ → Prop} {enabled : σ → α → Prop}
    [∀ s a, Decidable (enabled s a)] {effect : σ → α → σ} {s s' : σ} {a : α} :
    (guarded Init enabled effect).step s a = some s' ↔ enabled s a ∧ effect s a = s' := by
  by_cases h : enabled s a <;> simp [guarded, h]

/-! ## Executed schedules -/

variable (P) in
/-- Execute a list of actions, `none` when one of them is not enabled. -/
def schedule (s : σ) : List α → Option σ
  | [] => some s
  | a :: as => (P.step s a).bind fun s' => schedule s' as

variable (P ok) in
/-- Every step of the schedule is admitted. -/
def Admits (s : σ) : List α → Prop
  | [] => True
  | a :: as =>
    ok s a ∧
      match P.step s a with
      | some s' => Admits s' as
      | none => True

theorem runWhen_of_schedule {s s' : σ} {as : List α} (h : P.schedule s as = some s')
    (hok : P.Admits ok s as) : P.RunWhen ok s s' := by
  induction as generalizing s with
  | nil =>
    obtain rfl : s = s' := by simpa [schedule] using h
    exact Relation.ReflTransGen.refl
  | cons a as ih =>
    obtain ⟨t, hst, ht⟩ := Option.bind_eq_some_iff.mp h
    obtain ⟨ha, hrest⟩ := hok
    rw [hst] at hrest
    exact Relation.ReflTransGen.head ⟨a, ha, hst⟩ (ih ht hrest)

theorem reachableWhen_of_schedule {s₀ s : σ} {as : List α} (h₀ : P.Init s₀)
    (h : P.schedule s₀ as = some s) (hok : P.Admits ok s₀ as) : P.ReachableWhen ok s :=
  ⟨s₀, h₀, runWhen_of_schedule h hok⟩

theorem admits_true (s : σ) (as : List α) : P.Admits (fun _ _ => True) s as := by
  induction as generalizing s with
  | nil => trivial
  | cons a as ih =>
    refine ⟨trivial, ?_⟩
    split
    · exact ih _
    · trivial

theorem run_of_schedule {s s' : σ} {as : List α} (h : P.schedule s as = some s') : P.Run s s' :=
  runWhen_of_schedule h (admits_true s as)

theorem reachable_of_schedule {s₀ s : σ} {as : List α} (h₀ : P.Init s₀)
    (h : P.schedule s₀ as = some s) : P.Reachable s :=
  ⟨s₀, h₀, run_of_schedule h⟩

end Protocol

import Mathlib.Logic.Relation
import Mathlib.Order.RelClasses

/-!
# Simulation of deterministic machines

A machine is a step function that either continues or ends the run with an outcome. One machine
simulates another when a relation between their states survives every step, the simulating machine
taking any positive number of steps for one, or none as long as a measure decreases. The measure is
an index of the relation, so it may depend on more than the state.

Observations of the states in between count: the extra steps of the simulating machine may not
change what is observed.

## Main results

* `StarSimulation.terminates_iff` — both machines end with the same outcomes, or neither ends
* `StarSimulation.shows_iff` — both machines show the same observations on the way
-/

namespace Machine

variable {S T O B : Type*}

/-- The run from the first state passes through the second. -/
def Reaches (step : S → S ⊕ O) : S → S → Prop :=
  Relation.ReflTransGen fun a b => step a = .inl b

/-- The run from `s` ends with outcome `o`. -/
def Terminates (step : S → S ⊕ O) (s : S) (o : O) : Prop :=
  ∃ s', Reaches step s s' ∧ step s' = .inr o

/-- The run from `s` passes through a state observed as `b`. -/
def Shows (step : S → S ⊕ O) (obs : S → B) (s : S) (b : B) : Prop :=
  ∃ s', Reaches step s s' ∧ obs s' = b

/-- Steps that do not change the observation. -/
def Quiet (step : S → S ⊕ O) (obs : S → B) : S → S → Prop :=
  Relation.ReflTransGen fun a b => step a = .inl b ∧ obs b = obs a

/-- Quiet steps and one more step. -/
def QuietPlus (step : S → S ⊕ O) (obs : S → B) (s s' : S) : Prop :=
  ∃ u, Quiet step obs s u ∧ step u = .inl s'

/-- The run from the first state is in the second after exactly `n` steps. -/
def After (step : S → S ⊕ O) : ℕ → S → S → Prop
  | 0, s, s' => s = s'
  | n + 1, s, s' => ∃ u, step s = .inl u ∧ After step n u s'

/-- At most `n` steps. -/
def run (step : S → S ⊕ O) : ℕ → S → S ⊕ O
  | 0, s => .inl s
  | n + 1, s =>
    match step s with
    | .inl s' => run step n s'
    | .inr o => .inr o

section Runs

variable {step : S → S ⊕ O} {obs : S → B} {s s' u : S} {o : O}

theorem Reaches.head (h : step s = .inl u) (hu : Reaches step u s') : Reaches step s s' :=
  Relation.ReflTransGen.head h hu

theorem Terminates.head (h : step s = .inl u) (hu : Terminates step u o) :
    Terminates step s o := by
  obtain ⟨s', hs', ho⟩ := hu
  exact ⟨s', hs'.head h, ho⟩

theorem terminates_of_run (n : ℕ) (h : run step n s = .inr o) : Terminates step s o := by
  induction n generalizing s with
  | zero => cases h
  | succ n ih =>
    rw [run] at h
    rcases hs : step s with s' | o'
    · rw [hs] at h
      exact (ih h).head hs
    · rw [hs] at h
      exact ⟨s, .refl, hs.trans (congrArg _ (Sum.inr.inj h))⟩

theorem Shows.head {b : B} (h : step s = .inl u) (hu : Shows step obs u b) :
    Shows step obs s b := by
  obtain ⟨s', hs', hb⟩ := hu
  exact ⟨s', hs'.head h, hb⟩

theorem Quiet.reaches (h : Quiet step obs s s') : Reaches step s s' := by
  induction h with
  | refl => exact .refl
  | tail _ hab ih => exact ih.tail hab.1

theorem QuietPlus.reaches (h : QuietPlus step obs s s') : Reaches step s s' := by
  obtain ⟨u, hu, hstep⟩ := h
  exact hu.reaches.tail hstep

theorem QuietPlus.single (h : step s = .inl s') : QuietPlus step obs s s' :=
  ⟨s, .refl, h⟩

theorem exists_after (h : Reaches step s s') : ∃ n, After step n s s' := by
  induction h using Relation.ReflTransGen.head_induction_on with
  | refl => exact ⟨0, rfl⟩
  | head hstep _ ih =>
    obtain ⟨n, hn⟩ := ih
    exact ⟨n + 1, _, hstep, hn⟩

theorem After.reaches {n : ℕ} (h : After step n s s') : Reaches step s s' := by
  induction n generalizing s with
  | zero => obtain rfl := h; exact .refl
  | succ n ih =>
    obtain ⟨u, hstep, hu⟩ := h
    exact (ih hu).head hstep

/-- A state of the run lies within the quiet steps or behind them. -/
theorem After.quietPlus_split {n : ℕ} {t : S} (h : After step n s u)
    (hq : QuietPlus step obs s t) :
    (obs u = obs s ∧ ∃ u', step u = .inl u') ∨ ∃ m < n, After step m t u := by
  obtain ⟨v, hv, hstep⟩ := hq
  induction hv using Relation.ReflTransGen.head_induction_on generalizing n with
  | refl =>
    rcases n with _ | n
    · obtain rfl := h
      exact .inl ⟨rfl, t, hstep⟩
    · obtain ⟨t', ht', hn⟩ := h
      obtain rfl : t = t' := Sum.inl.inj (hstep.symm.trans ht')
      exact .inr ⟨n, n.lt_succ_self, hn⟩
  | head hac _ ih =>
    rcases n with _ | n
    · obtain rfl := h
      exact .inl ⟨rfl, _, hac.1⟩
    · obtain ⟨c, hc, hn⟩ := h
      obtain rfl := Sum.inl.inj (hac.1.symm.trans hc)
      rcases ih hn with ⟨hobs, hu⟩ | ⟨m, hm, hmu⟩
      · exact .inl ⟨hobs.trans hac.2, hu⟩
      · exact .inr ⟨m, Nat.lt_succ_of_lt hm, hmu⟩

/-- Two runs of one machine from one state end alike. -/
theorem Terminates.unique {o' : O} (h : Terminates step s o) (h' : Terminates step s o') :
    o = o' := by
  obtain ⟨u, hu, ho⟩ := h
  obtain ⟨n, hn⟩ := exists_after hu
  induction n generalizing s with
  | zero =>
    obtain rfl := hn
    obtain ⟨u', hu', ho'⟩ := h'
    rcases hu'.cases_head with rfl | ⟨c, hc, _⟩
    · exact Sum.inr.inj (ho.symm.trans ho')
    · exact absurd (ho.symm.trans hc) (by simp)
  | succ n ih =>
    obtain ⟨c, hc, hn⟩ := hn
    obtain ⟨u', hu', ho'⟩ := h'
    rcases hu'.cases_head with rfl | ⟨c', hc', hcu'⟩
    · exact absurd (ho'.symm.trans hc) (by simp)
    · obtain rfl := Sum.inl.inj (hc.symm.trans hc')
      exact ih ⟨u', hcu', ho'⟩ hn.reaches hn

end Runs

/-- `R` relates a machine to one that simulates it. -/
structure StarSimulation (step : S → S ⊕ O) (step' : T → T ⊕ O) (obs : S → B) (obs' : T → B)
    (R : ℕ → S → T → Prop) : Prop where
  obs_eq : ∀ {k s t}, R k s t → obs s = obs' t
  next : ∀ {k s t s'}, R k s t → step s = .inl s' →
    (∃ t' k', QuietPlus step' obs' t t' ∧ R k' s' t') ∨ ∃ k' < k, R k' s' t
  done : ∀ {k s t o}, R k s t → step s = .inr o → step' t = .inr o

namespace StarSimulation

variable {step : S → S ⊕ O} {step' : T → T ⊕ O} {obs : S → B} {obs' : T → B}
variable {R : ℕ → S → T → Prop} {k : ℕ} {s s' : S} {t u : T}

section

variable (sim : StarSimulation step step' obs obs' R)

include sim

theorem reaches (h : Reaches step s s') (hR : R k s t) :
    ∃ t' k', Reaches step' t t' ∧ R k' s' t' := by
  induction h with
  | refl => exact ⟨t, k, .refl, hR⟩
  | tail _ hstep ih =>
    obtain ⟨t₁, k₁, ht₁, hR₁⟩ := ih
    rcases sim.next hR₁ hstep with ⟨t₂, k₂, hq, hR₂⟩ | ⟨k₂, _, hR₂⟩
    · exact ⟨t₂, k₂, ht₁.trans hq.reaches, hR₂⟩
    · exact ⟨t₁, k₂, ht₁, hR₂⟩

/-- Every state of the simulating run is accounted for by the simulated one: the induction is on
the length of the simulating run, and on the measure while that run stands still. -/
theorem after {n : ℕ} (h : After step' n t u) (hR : R k s t) :
    Shows step obs s (obs' u) ∧ ∀ o, step' u = .inr o → Terminates step s o := by
  induction n using Nat.strongRecOn generalizing k s t with
  | _ n ihn =>
    induction k using Nat.strongRecOn generalizing s with
    | _ k ihk =>
      rcases hs : step s with s' | o
      · rcases sim.next hR hs with ⟨t', k', hq, hR'⟩ | ⟨k', hk', hR'⟩
        · rcases h.quietPlus_split hq with ⟨hobs, u', hu'⟩ | ⟨m, hm, hmu⟩
          · refine ⟨⟨s, .refl, (sim.obs_eq hR).trans hobs.symm⟩, fun o ho => ?_⟩
            exact absurd (hu'.symm.trans ho) (by simp)
          · obtain ⟨hshow, hterm⟩ := ihn m hm hmu hR'
            exact ⟨hshow.head hs, fun o ho => (hterm o ho).head hs⟩
        · obtain ⟨hshow, hterm⟩ := ihk k' hk' hR'
          exact ⟨hshow.head hs, fun o ho => (hterm o ho).head hs⟩
      · have ht := sim.done hR hs
        rcases n with _ | n
        · obtain rfl := h
          refine ⟨⟨s, .refl, sim.obs_eq hR⟩, fun o' ho' => ?_⟩
          obtain rfl : o = o' := Sum.inr.inj (ht.symm.trans ho')
          exact ⟨s, .refl, hs⟩
        · obtain ⟨t', ht', _⟩ := h
          exact absurd (ht.symm.trans ht') (by simp)

theorem terminates_iff (hR : R k s t) (o : O) : Terminates step s o ↔ Terminates step' t o := by
  constructor
  · rintro ⟨s', hs', ho⟩
    obtain ⟨t', k', ht', hR'⟩ := sim.reaches hs' hR
    exact ⟨t', ht', sim.done hR' ho⟩
  · rintro ⟨t', ht', ho⟩
    obtain ⟨n, hn⟩ := exists_after ht'
    exact (sim.after hn hR).2 o ho

theorem shows_iff (hR : R k s t) (b : B) : Shows step obs s b ↔ Shows step' obs' t b := by
  constructor
  · rintro ⟨s', hs', rfl⟩
    obtain ⟨t', k', ht', hR'⟩ := sim.reaches hs' hR
    exact ⟨t', ht', (sim.obs_eq hR').symm⟩
  · rintro ⟨t', ht', rfl⟩
    obtain ⟨n, hn⟩ := exists_after ht'
    exact (sim.after hn hR).1

end

end StarSimulation

end Machine

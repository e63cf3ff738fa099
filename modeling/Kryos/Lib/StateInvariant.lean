import Mathlib.Order.Basic

/-!
# Invariants of programs that can fail

A program here is a computation in `ExceptT ε (StateM σ)`: it changes the state also when it fails,
as a program with side effects does. `Keeps I p` says that it leads from states with `I` to states
with `I`, however it ends.
-/

namespace StateInvariant

variable {σ ε α β : Type}

/-- The program keeps `I`. -/
def Keeps (I : σ → Prop) (p : ExceptT ε (StateM σ) α) : Prop :=
  ∀ s, I s → I (p.run.run s).2

variable {I : σ → Prop}

theorem keeps_pure (a : α) : Keeps I (pure a : ExceptT ε (StateM σ) α) :=
  fun _ h => h

theorem keeps_throw (e : ε) : Keeps I (throw e : ExceptT ε (StateM σ) α) :=
  fun _ h => h

variable {p : ExceptT ε (StateM σ) α} {f : α → ExceptT ε (StateM σ) β}

theorem keeps_bind (hp : Keeps I p) (hf : ∀ a, Keeps I (f a)) : Keeps I (p >>= f) := by
  intro s hs
  have hmid := hp s hs
  show I (StateT.run (ExceptT.bindCont f (p.run.run s).1) (p.run.run s).2).2
  cases (p.run.run s).1 with
  | error e => exact hmid
  | ok a => exact hf a _ hmid

theorem keeps_throw_bind (e : ε) (f : α → ExceptT ε (StateM σ) β) : Keeps I (throw e >>= f) :=
  fun _ h => h

theorem keeps_tryCatch {f : ε → ExceptT ε (StateM σ) α} (hp : Keeps I p) (hf : ∀ e, Keeps I (f e)) :
    Keeps I (tryCatch p f) := by
  intro s hs
  have hmid := hp s hs
  have heq : (tryCatch p f).run.run s = match (p.run.run s).1 with
      | .ok a => (.ok a, (p.run.run s).2)
      | .error e => (f e).run.run (p.run.run s).2 := by
    show StateT.run (match (p.run.run s).1 with | Except.ok a => _ | Except.error e => _) _ = _
    cases (p.run.run s).1 <;> rfl
  rw [heq]
  cases (p.run.run s).1 with
  | error e => exact hf e _ hmid
  | ok a => exact hmid

theorem keeps_ite {c : Prop} [Decidable c] {q : ExceptT ε (StateM σ) α} (hp : c → Keeps I p)
    (hq : ¬ c → Keeps I q) : Keeps I (if c then p else q) := by
  by_cases hc : c
  · rw [if_pos hc]
    exact hp hc
  · rw [if_neg hc]
    exact hq hc

section

variable {p : ExceptT ε (StateM σ) Unit} {f : Unit → ExceptT ε (StateM σ) α} (hp : Keeps I p)
  (hf : ∀ u, Keeps I (f u))

include hp hf

/-- A step that is only taken under a condition, in front of the rest of a program. -/
theorem keeps_when {c : Prop} [Decidable c] : Keeps I (if c then p >>= f else f ()) :=
  keeps_ite (fun _ => keeps_bind hp hf) fun _ => hf ()

theorem keeps_unless {c : Prop} [Decidable c] : Keeps I (if c then f () else p >>= f) :=
  keeps_ite (fun _ => hf ()) fun _ => keeps_bind hp hf

end

theorem keeps_mapM {l : List α} (hf : ∀ a ∈ l, Keeps I (f a)) : Keeps I (l.mapM f) := by
  induction l with
  | nil => exact keeps_pure []
  | cons a l ih =>
    rw [List.mapM_cons]
    refine keeps_bind (hf a List.mem_cons_self) fun b => keeps_bind ?_ fun bs => keeps_pure (b :: bs)
    exact ih fun a' ha' => hf a' (List.mem_cons_of_mem a ha')

/-! ## Runs that end well -/

theorem run_pure_eq {a b : α} {s t : σ} :
    (pure a : ExceptT ε (StateM σ) α).run.run s = (.ok b, t) ↔ b = a ∧ t = s := by
  constructor
  · intro h
    cases h
    exact ⟨rfl, rfl⟩
  · rintro ⟨rfl, rfl⟩
    rfl

/-- A run of two programs in a row is two runs in a row. -/
theorem run_bind_eq {b : β} {s t : σ} :
    (p >>= f).run.run s = (.ok b, t) ↔
      ∃ a u, p.run.run s = (.ok a, u) ∧ (f a).run.run u = (.ok b, t) := by
  show StateT.run (ExceptT.bindCont f (p.run.run s).1) (p.run.run s).2 = _ ↔ _
  rcases p.run.run s with ⟨r, u⟩
  cases r with
  | error e =>
    constructor
    · intro h
      cases h
    · rintro ⟨a, u', h, -⟩
      cases h
  | ok a =>
    constructor
    · intro h
      exact ⟨a, u, rfl, h⟩
    · rintro ⟨a', u', h, hf⟩
      cases h
      exact hf

/-- Whether or not the step in front is taken, the rest is run from some state. -/
theorem run_unless {c : Prop} [Decidable c] {p : ExceptT ε (StateM σ) Unit}
    {f : Unit → ExceptT ε (StateM σ) α} {a : α} {s t : σ}
    (h : (if c then f () else p >>= f).run.run s = (.ok a, t)) :
    ∃ u, (f ()).run.run u = (.ok a, t) := by
  by_cases hc : c
  · rw [if_pos hc] at h
    exact ⟨s, h⟩
  · rw [if_neg hc, run_bind_eq] at h
    obtain ⟨_, u, -, h⟩ := h
    exact ⟨u, h⟩

theorem run_mapM_append {l l' : List α} {bs : List β} {s t : σ}
    (h : ((l ++ l').mapM f).run.run s = (.ok bs, t)) :
    ∃ bs₁ bs₂ u, bs = bs₁ ++ bs₂ ∧ (l.mapM f).run.run s = (.ok bs₁, u) ∧
      (l'.mapM f).run.run u = (.ok bs₂, t) := by
  induction l generalizing bs s with
  | nil => exact ⟨[], bs, s, rfl, rfl, h⟩
  | cons a l ih =>
    rw [List.cons_append, List.mapM_cons, run_bind_eq] at h
    obtain ⟨b, u, hb, h⟩ := h
    rw [run_bind_eq] at h
    obtain ⟨rest, u', hrest, h⟩ := h
    obtain ⟨rfl, rfl⟩ := run_pure_eq.mp h
    obtain ⟨bs₁, bs₂, v, rfl, h₁, h₂⟩ := ih hrest
    refine ⟨b :: bs₁, bs₂, v, rfl, ?_, h₂⟩
    rw [List.mapM_cons, run_bind_eq]
    exact ⟨b, u, hb, run_bind_eq.mpr ⟨bs₁, v, h₁, rfl⟩⟩

theorem run_mapM_append_eq {l l' : List α} {bs₁ bs₂ : List β} {s u t : σ}
    (h₁ : (l.mapM f).run.run s = (.ok bs₁, u)) (h₂ : (l'.mapM f).run.run u = (.ok bs₂, t)) :
    ((l ++ l').mapM f).run.run s = (.ok (bs₁ ++ bs₂), t) := by
  induction l generalizing bs₁ s with
  | nil =>
    obtain ⟨rfl, rfl⟩ := run_pure_eq.mp h₁
    exact h₂
  | cons a l ih =>
    rw [List.mapM_cons] at h₁
    obtain ⟨b, v, hb, h₁⟩ := run_bind_eq.mp h₁
    obtain ⟨bs, v', hbs, h₁⟩ := run_bind_eq.mp h₁
    obtain ⟨rfl, rfl⟩ := run_pure_eq.mp h₁
    rw [List.cons_append, List.mapM_cons]
    exact run_bind_eq.mpr ⟨b, v, hb, run_bind_eq.mpr ⟨bs ++ bs₂, t, ih hbs, rfl⟩⟩

end StateInvariant

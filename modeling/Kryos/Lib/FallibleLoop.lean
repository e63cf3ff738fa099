import Mathlib.Data.List.Forall2

/-!
# Loops that can fail

`List.foldlM` in `Except` is a `for` loop whose body may leave with an error. An invariant of such a
loop speaks about the part of the list already done and about the state.

## Main results

* `List.foldlM_ok_induct` — the invariant rule, for a loop that is known to succeed
* `List.foldlM_ok_of_step` — the same when the invariant makes every iteration succeed
* `List.foldlM_error_split` — a failed loop fails in one iteration, after a part that succeeded
* `List.foldlM_eq_of_ne_error` — replacing the body where it failed in a way the loop did not
* `List.mapM_eq_ok` — a `mapM` that succeeded
-/

namespace List

variable {α ε σ : Type*} {f : σ → α → Except ε σ} {l : List α} {s s' : σ}

theorem foldlM_cons_ok {a : α} :
    (a :: l).foldlM f s = .ok s' ↔ ∃ t, f s a = .ok t ∧ l.foldlM f t = .ok s' := by
  rw [List.foldlM_cons]
  constructor
  · intro h
    cases hf : f s a with
    | error e => rw [hf] at h; cases h
    | ok t => rw [hf] at h; exact ⟨t, rfl, h⟩
  · rintro ⟨t, hf, ht⟩
    rw [hf]
    exact ht

theorem foldlM_cons_error {a : α} {e : ε} :
    (a :: l).foldlM f s = .error e ↔
      f s a = .error e ∨ ∃ t, f s a = .ok t ∧ l.foldlM f t = .error e := by
  rw [List.foldlM_cons]
  constructor
  · intro h
    cases hf : f s a with
    | error e' => rw [hf] at h; cases h; exact .inl rfl
    | ok t => rw [hf] at h; exact .inr ⟨t, rfl, h⟩
  · rintro (hf | ⟨t, hf, ht⟩)
    · rw [hf]
      rfl
    · rw [hf]
      exact ht

-- The induction is on what is left of the list; the invariant is generalised over what is done.
private theorem foldlM_ok_induct_aux {P : List α → σ → Prop} (done : List α)
    (step : ∀ pre a post t t', done ++ l = pre ++ a :: post → P pre t → f t a = .ok t' →
      P (pre ++ [a]) t')
    (hs : P done s) (h : l.foldlM f s = .ok s') : P (done ++ l) s' := by
  induction l generalizing done s with
  | nil =>
    cases h
    simpa using hs
  | cons a l ih =>
    obtain ⟨t, hf, ht⟩ := foldlM_cons_ok.mp h
    have hdone : done ++ a :: l = (done ++ [a]) ++ l := by simp
    rw [hdone]
    refine ih (done ++ [a]) ?_ (step done a l s t rfl hs hf) ht
    intro pre b post u u' hsplit
    exact step pre b post u u' (hdone.trans hsplit)

/-- The invariant rule of a loop that succeeded. -/
theorem foldlM_ok_induct (P : List α → σ → Prop) (h : l.foldlM f s = .ok s') (hs : P [] s)
    (step : ∀ pre a post t t', l = pre ++ a :: post → P pre t → f t a = .ok t' →
      P (pre ++ [a]) t') : P l s' :=
  foldlM_ok_induct_aux [] step hs h

/-- The invariant rule when an iteration cannot fail in a state that satisfies the invariant. -/
theorem foldlM_ok_of_step (P : List α → σ → Prop) (hs : P [] s)
    (step : ∀ pre a post t, l = pre ++ a :: post → P pre t →
      ∃ t', f t a = .ok t' ∧ P (pre ++ [a]) t') : ∃ s', l.foldlM f s = .ok s' ∧ P l s' := by
  suffices key : ∀ (rest done : List α) (t : σ), l = done ++ rest → P done t →
      ∃ s', rest.foldlM f t = .ok s' ∧ P l s' from key l [] s rfl hs
  intro rest
  induction rest with
  | nil =>
    intro done t hl ht
    rw [List.append_nil] at hl
    exact ⟨t, rfl, hl ▸ ht⟩
  | cons a rest ih =>
    intro done t hl ht
    obtain ⟨t', hf, ht'⟩ := step done a rest t hl ht
    obtain ⟨s', hs', hP⟩ := ih (done ++ [a]) t' (by simpa using hl) ht'
    exact ⟨s', foldlM_cons_ok.mpr ⟨t', hf, hs'⟩, hP⟩

/-- A body that differs only where the other fails in one given way gives the same loop, unless the
loop fails in that way. -/
theorem foldlM_eq_of_ne_error {g : σ → α → Except ε σ} {e : ε}
    (h : ∀ t, ∀ a ∈ l, f t a ≠ .error e → g t a = f t a) (hne : l.foldlM f s ≠ .error e) :
    l.foldlM g s = l.foldlM f s := by
  induction l generalizing s with
  | nil => rfl
  | cons a l ih =>
    have hcall : f s a ≠ .error e := by
      intro hf
      exact hne (foldlM_cons_error.mpr (.inl hf))
    rw [List.foldlM_cons, List.foldlM_cons, h s a (List.mem_cons_self ..) hcall]
    cases hf : f s a with
    | error e' => rfl
    | ok t =>
      refine ih (fun t b hb => h t b (List.mem_cons_of_mem _ hb)) ?_
      intro ht
      exact hne (foldlM_cons_error.mpr (.inr ⟨t, hf, ht⟩))

/-- Where a failed loop failed. -/
theorem foldlM_error_split {e : ε} (h : l.foldlM f s = .error e) :
    ∃ pre a post t, l = pre ++ a :: post ∧ pre.foldlM f s = .ok t ∧ f t a = .error e := by
  induction l generalizing s with
  | nil => cases h
  | cons a l ih =>
    obtain hf | ⟨t, hf, ht⟩ := foldlM_cons_error.mp h
    · exact ⟨[], a, l, s, rfl, rfl, hf⟩
    · obtain ⟨pre, b, post, u, rfl, hpre, hb⟩ := ih ht
      exact ⟨a :: pre, b, post, u, rfl, foldlM_cons_ok.mpr ⟨t, hf, hpre⟩, hb⟩

theorem mapM_eq_ok {β : Type*} {f : α → Except ε β} {bs : List β} :
    l.mapM f = .ok bs ↔ Forall₂ (fun a b => f a = .ok b) l bs := by
  induction l generalizing bs with
  | nil =>
    rw [forall₂_nil_left_iff]
    exact ⟨fun h => by cases h; rfl, fun h => h ▸ rfl⟩
  | cons a l ih =>
    rw [mapM_cons, forall₂_cons_left_iff]
    constructor
    · intro h
      cases hf : f a with
      | error e => rw [hf] at h; cases h
      | ok b =>
        cases hl : l.mapM f with
        | error e => rw [hf, hl] at h; cases h
        | ok bs' =>
          rw [hf, hl] at h
          cases h
          exact ⟨b, bs', rfl, ih.mp hl, rfl⟩
    · rintro ⟨b, bs', hf, hbs, rfl⟩
      rw [hf, ih.mpr hbs]
      rfl

end List

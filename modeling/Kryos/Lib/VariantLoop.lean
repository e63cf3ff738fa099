import Mathlib.Data.Nat.Notation

/-!
# Loops with a variant

A loop in a program that can fail. Its body either goes on with a new state or leaves the loop with
a result. `iterate` takes the number of rounds it may make; a variant that decreases in every round
shows that a number of rounds is enough.
-/

namespace VariantLoop

variable {τ ρ : Type*} {step : τ → Option (τ ⊕ ρ)}

def iterate (step : τ → Option (τ ⊕ ρ)) : ℕ → τ → Option ρ
  | 0, _ => none
  | n + 1, t =>
    match step t with
    | none => none
    | some (.inl t') => iterate step n t'
    | some (.inr r) => some r

/-- The loop rule: an invariant, and a variant that decreases while the loop goes on. -/
theorem iterate_spec {I : τ → Prop} {Q : ρ → Prop} (μ : τ → ℕ)
    (hstep : ∀ t, I t → (∃ t', step t = some (.inl t') ∧ I t' ∧ μ t' < μ t) ∨
      ∃ r, step t = some (.inr r) ∧ Q r)
    {n : ℕ} {t : τ} (ht : I t) (hn : μ t < n) : ∃ r, iterate step n t = some r ∧ Q r := by
  induction n generalizing t with
  | zero => exact absurd hn (Nat.not_lt_zero _)
  | succ n ih =>
    rw [iterate]
    rcases hstep t ht with ⟨t', heq, ht', hlt⟩ | ⟨r, heq, hr⟩
    · rw [heq]
      exact ih ht' (Nat.lt_of_lt_of_le hlt (Nat.le_of_lt_succ hn))
    · rw [heq]
      exact ⟨r, rfl, hr⟩

/-- More rounds than a loop needs change nothing. -/
theorem iterate_mono {n m : ℕ} {t : τ} {r : ρ} (h : iterate step n t = some r) (hle : n ≤ m) :
    iterate step m t = some r := by
  induction n generalizing t m with
  | zero => cases h
  | succ n ih =>
    cases m with
    | zero => exact absurd hle (Nat.not_succ_le_zero n)
    | succ m =>
      rw [iterate] at h ⊢
      cases hstep : step t with
      | none =>
        rw [hstep] at h
        cases h
      | some next =>
        rw [hstep] at h
        cases next with
        | inl t' => exact ih h (Nat.le_of_succ_le_succ hle)
        | inr r' => exact h

end VariantLoop

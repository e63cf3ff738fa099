import Mathlib.Logic.Relation
import Mathlib.Data.List.Basic

/-!
# Search to a depth

A search that follows the successors of a node to a fixed depth, on a graph that may have cycles. It
finds just what can be reached in that many steps.

## Main results

* `search_iff` — what the search finds
* `reflTransGen_of_within` — counted steps are steps
-/

namespace BoundedSearch

open Relation

variable {α : Type*}

/-- At most this many steps lead from one node to the other. -/
def Within (step : α → α → Prop) : ℕ → α → α → Prop
  | 0, a, b => a = b
  | n + 1, a, b => a = b ∨ ∃ c, step a c ∧ Within step n c b

theorem reflTransGen_of_within {step : α → α → Prop} {n : ℕ} {a b : α} (h : Within step n a b) :
    ReflTransGen step a b := by
  induction n generalizing a with
  | zero =>
    cases h
    exact .refl
  | succ n ih =>
    obtain rfl | ⟨c, hstep, hrest⟩ := h
    · exact .refl
    · exact .head hstep (ih hrest)

/-- A search that looks at a node and then, one level down, at its successors. -/
def search (found : α → Bool) (next : α → List α) : ℕ → α → Bool
  | 0, _ => false
  | n + 1, a => found a || (next a).any (search found next n)

/-- **What the search finds.** -/
theorem search_iff {found : α → Bool} {next : α → List α} {n : ℕ} {a : α} :
    search found next (n + 1) a = true ↔
      ∃ b, found b = true ∧ Within (fun a b => b ∈ next a) n a b := by
  induction n generalizing a with
  | zero =>
    rw [search, Bool.or_eq_true]
    constructor
    · rintro (h | h)
      · exact ⟨a, h, rfl⟩
      · obtain ⟨b, -, hb⟩ := List.any_eq_true.mp h
        cases hb
    · rintro ⟨b, hb, rfl⟩
      exact .inl hb
  | succ n ih =>
    rw [search, Bool.or_eq_true, List.any_eq_true]
    constructor
    · rintro (h | ⟨c, hc, hsearch⟩)
      · exact ⟨a, h, .inl rfl⟩
      · obtain ⟨b, hb, hwithin⟩ := ih.mp hsearch
        exact ⟨b, hb, .inr ⟨c, hc, hwithin⟩⟩
    · rintro ⟨b, hb, rfl | ⟨c, hc, hwithin⟩⟩
      · exact .inl hb
      · exact .inr ⟨c, hc, ih.mpr ⟨b, hb, hwithin⟩⟩

end BoundedSearch

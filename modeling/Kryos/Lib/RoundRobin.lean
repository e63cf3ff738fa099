import Mathlib

/-!
# Round robin

A queue of items, each with a number of turns. The first item takes one turn and goes to the back
with one turn less; an item without turns leaves the queue. The turns are taken in rounds.

## Main result

* `turns_eq_rounds` — one turn of every item in the order of the queue, then one more of every item
  that has one, and so on
-/

namespace RoundRobin

variable {α : Type*}

/-- The turns that are still to be taken, with one more for each item. -/
def weight (q : List (α × ℕ)) : ℕ := (q.map fun p => 2 * p.2 + 1).sum

def turns : List (α × ℕ) → List α
  | [] => []
  | (_, 0) :: q => turns q
  | (a, k + 1) :: q => a :: turns (q ++ [(a, k)])
termination_by q => weight q
decreasing_by all_goals simp [weight] <;> omega

/-- The items that have more than `k` turns. -/
def round (q : List (α × ℕ)) (k : ℕ) : List α := (q.filter fun p => k < p.2).map Prod.fst

/-- The first `n` rounds. -/
def rounds (q : List (α × ℕ)) (n : ℕ) : List α := (List.range n).flatMap (round q)

/-- One turn less of every item that has one. -/
def rest (q : List (α × ℕ)) : List (α × ℕ) := (q.filter fun p => 0 < p.2).map fun p => (p.1, p.2 - 1)

/-- The turns of one round come before all others. -/
theorem turns_append (q q' : List (α × ℕ)) : turns (q ++ q') = round q 0 ++ turns (q' ++ rest q) := by
  induction q generalizing q' with
  | nil => simp [round, rest]
  | cons p q ih =>
    obtain ⟨a, k⟩ := p
    cases k with
    | zero =>
      rw [List.cons_append, turns, ih]
      rfl
    | succ k =>
      rw [List.cons_append, turns, List.append_assoc, ih]
      simp [round, rest]

theorem round_rest (q : List (α × ℕ)) (k : ℕ) : round (rest q) k = round q (k + 1) := by
  rw [round, rest, round, List.filter_map, List.map_map, List.filter_filter]
  have hfilter : (fun p : α × ℕ => (((fun p : α × ℕ => decide (k < p.2)) ∘ fun p => (p.1, p.2 - 1)) p
      && decide (0 < p.2))) = fun p => decide (k + 1 < p.2) := by
    funext p
    simp only [Function.comp_apply, ← Bool.decide_and]
    exact decide_eq_decide.mpr (by omega)
  rw [hfilter]
  rfl

/-- **The turns are taken in rounds.** -/
theorem turns_eq_rounds {q : List (α × ℕ)} {n : ℕ} (h : ∀ p ∈ q, p.2 ≤ n) :
    turns q = rounds q n := by
  induction n generalizing q with
  | zero =>
    have hnone : ∀ p ∈ q, ¬ 0 < p.2 := fun p hp => Nat.not_lt.mpr (h p hp)
    have hturns := turns_append q []
    have hfilter : q.filter (fun p => 0 < p.2) = [] :=
      List.filter_eq_nil_iff.mpr fun p hp => by simpa using hnone p hp
    rw [List.append_nil, round, rest, hfilter] at hturns
    simp [hturns, turns, rounds]
  | succ n ih =>
    have hturns := turns_append q []
    have hrest : ∀ p ∈ rest q, p.2 ≤ n := by
      intro p hp
      obtain ⟨p', hp', rfl⟩ := List.mem_map.mp hp
      have := h p' (List.mem_filter.mp hp').1
      dsimp only
      omega
    rw [List.append_nil, List.nil_append, ih hrest] at hturns
    have hround : round (rest q) = fun k => round q (k + 1) := funext (round_rest q)
    rw [hturns, rounds, rounds, List.range_succ_eq_map, List.flatMap_cons, List.flatMap_map, hround]

/-- An item without turns at the back of the queue does not count. -/
theorem turns_append_zero (q : List (α × ℕ)) (a : α) : turns (q ++ [(a, 0)]) = turns q := by
  have h := turns_append q [(a, 0)]
  have h' := turns_append q []
  rw [List.singleton_append, turns] at h
  rw [List.append_nil, List.nil_append] at h'
  rw [h, h']

end RoundRobin

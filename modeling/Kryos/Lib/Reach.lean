import Mathlib.Data.Finset.Card
import Mathlib.Data.Finset.Union
import Mathlib.Logic.Relation

/-!
# Reachability in a finite graph

A graph is given by the successors of each node. `Reach.reach` collects the nodes that can be
reached from a set of nodes, level by level. It takes the number of levels as fuel; a graph with
at most that many nodes that have a successor is searched completely, whatever its cycles are.
-/

namespace Reach

open Relation

variable {α : Type*} [DecidableEq α] {succ : α → Finset α}

/-- Search from the nodes of `frontier`, when `seen` has been searched already. -/
def levels (succ : α → Finset α) : ℕ → Finset α → Finset α → Finset α
  | 0, frontier, seen => seen ∪ frontier
  | n + 1, frontier, seen =>
    if frontier = ∅ then seen
    else levels succ n (frontier.biUnion succ \ (seen ∪ frontier)) (seen ∪ frontier)

def reach (succ : α → Finset α) (fuel : ℕ) (start : Finset α) : Finset α :=
  levels succ fuel start ∅

theorem levels_empty (n : ℕ) (seen : Finset α) : levels succ n ∅ seen = seen := by
  cases n with
  | zero => rw [levels, Finset.union_empty]
  | succ n => rw [levels, if_pos rfl]

theorem subset_levels (n : ℕ) (frontier seen : Finset α) :
    seen ∪ frontier ⊆ levels succ n frontier seen := by
  induction n generalizing frontier seen with
  | zero => exact Finset.Subset.refl _
  | succ n ih =>
    rw [levels]
    split
    · rename_i h
      rw [h, Finset.union_empty]
    · exact Finset.subset_union_left.trans (ih _ _)

/-- What the search collects satisfies every property of the nodes it starts from that the
successors inherit. -/
theorem levels_induct {P : α → Prop} (hstep : ∀ v w, P v → w ∈ succ v → P w) {n : ℕ}
    {frontier seen : Finset α} (hf : ∀ v ∈ frontier, P v) (hs : ∀ v ∈ seen, P v) :
    ∀ v ∈ levels succ n frontier seen, P v := by
  induction n generalizing frontier seen with
  | zero =>
    intro v hv
    exact (Finset.mem_union.mp hv).elim (hs v) (hf v)
  | succ n ih =>
    intro v hv
    rw [levels] at hv
    split at hv
    · exact hs v hv
    · refine ih ?_ ?_ v hv
      · intro w hw
        obtain ⟨u, hu, hw⟩ := Finset.mem_biUnion.mp (Finset.mem_sdiff.mp hw).1
        exact hstep u w (hf u hu) hw
      · intro w hw
        exact (Finset.mem_union.mp hw).elim (hs w) (hf w)

/-- The search is complete: with enough fuel its result has the successors of its nodes. The nodes
of `dom` are the only ones with a successor, and the fuel bounds those not yet seen. -/
theorem levels_closed {dom : Finset α} (hdom : ∀ v, v ∉ dom → succ v = ∅) {n : ℕ}
    {frontier seen : Finset α} (hn : (dom \ seen).card ≤ n) (hdisj : Disjoint frontier seen)
    (hseen : ∀ v ∈ seen, succ v ⊆ seen ∪ frontier) {v : α} (hv : v ∈ levels succ n frontier seen) :
    succ v ⊆ levels succ n frontier seen := by
  induction n generalizing frontier seen with
  | zero =>
    have hsub : dom ⊆ seen := Finset.sdiff_eq_empty_iff_subset.mp
      (Finset.card_eq_zero.mp (Nat.le_zero.mp hn))
    rcases Finset.mem_union.mp hv with hv | hv
    · exact hseen v hv
    · have : v ∉ dom := fun h => Finset.disjoint_left.mp hdisj hv (hsub h)
      rw [hdom v this]
      exact Finset.empty_subset _
  | succ n ih =>
    rw [levels] at hv ⊢
    split at hv
    · rename_i h
      rw [if_pos h]
      simpa [h] using hseen v hv
    · rename_i h
      rw [if_neg h]
      -- Either the frontier has a node of `dom`, which costs one unit of fuel, or this was the
      -- last level.
      by_cases hmeet : Disjoint frontier dom
      · have hlast : frontier.biUnion succ = ∅ := by
          refine Finset.eq_empty_of_forall_notMem fun u hu => ?_
          obtain ⟨w, hw, huw⟩ := Finset.mem_biUnion.mp hu
          rw [hdom w (Finset.disjoint_left.mp hmeet hw)] at huw
          exact Finset.notMem_empty u huw
        rw [hlast, Finset.empty_sdiff, levels_empty] at hv ⊢
        rcases Finset.mem_union.mp hv with hv | hv
        · exact hseen v hv
        · rw [hdom v (Finset.disjoint_left.mp hmeet hv)]
          exact Finset.empty_subset _
      · refine ih ?_ Finset.sdiff_disjoint ?_ hv
        · obtain ⟨w, hw, hwd⟩ := Finset.not_disjoint_iff.mp hmeet
          have hlt : (dom \ (seen ∪ frontier)).card < (dom \ seen).card := by
            refine Finset.card_lt_card ⟨?_, ?_⟩
            · exact Finset.sdiff_subset_sdiff (Finset.Subset.refl _) Finset.subset_union_left
            · intro hsub
              have hws : w ∈ dom \ seen :=
                Finset.mem_sdiff.mpr ⟨hwd, Finset.disjoint_left.mp hdisj hw⟩
              exact (Finset.mem_sdiff.mp (hsub hws)).2 (Finset.mem_union_right _ hw)
          omega
        · intro u hu w hw
          by_cases hws : w ∈ seen ∪ frontier
          · exact Finset.mem_union_left _ hws
          · refine Finset.mem_union_right _ (Finset.mem_sdiff.mpr ⟨?_, hws⟩)
            rcases Finset.mem_union.mp hu with hu | hu
            · exact absurd (hseen u hu hw) hws
            · exact Finset.mem_biUnion.mpr ⟨u, hu, hw⟩

/-- With enough fuel the search collects exactly the reachable nodes. -/
theorem mem_reach_iff {dom : Finset α} (hdom : ∀ v, v ∉ dom → succ v = ∅) {fuel : ℕ}
    (hfuel : dom.card ≤ fuel) {start : Finset α} {w : α} :
    w ∈ reach succ fuel start ↔ ∃ v ∈ start, ReflTransGen (fun a b => b ∈ succ a) v w := by
  constructor
  · refine levels_induct (P := fun w => ∃ v ∈ start, ReflTransGen (fun a b => b ∈ succ a) v w)
      ?_ ?_ ?_ w
    · rintro v w ⟨u, hu, hv⟩ hw
      exact ⟨u, hu, hv.tail hw⟩
    · exact fun v hv => ⟨v, hv, .refl⟩
    · simp
  · rintro ⟨v, hv, hvw⟩
    have hstart : v ∈ reach succ fuel start := subset_levels fuel start ∅ (by simpa using hv)
    induction hvw with
    | refl => exact hstart
    | tail _ hw ih =>
      exact levels_closed hdom (by simpa using hfuel) (Finset.disjoint_empty_right _) (by simp) ih
        hw

end Reach

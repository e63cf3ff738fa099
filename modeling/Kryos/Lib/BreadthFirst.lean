import Mathlib.Data.Finset.Card
import Mathlib.Logic.Relation

/-!
# Breadth-first search

Nodes wait in a queue, and a node enters the queue when it is met for the first time. The search
takes fuel, one unit for each node that leaves the queue.

## Main results

* `mem_search_iff` — what the search meets
* `search_isSome` — enough fuel for a finite graph
-/

namespace BreadthFirst

open Relation

variable {α : Type*} [DecidableEq α]

/-- The queue and the nodes met, after one more node is met. -/
def meet (s : List α × List α) (a : α) : List α × List α :=
  if a ∈ s.2 then s else (s.1 ++ [a], s.2 ++ [a])

def search (next : α → List α) : ℕ → List α × List α → Option (List α)
  | _, ([], met) => some met
  | 0, (_ :: _, _) => none
  | n + 1, (a :: queue, met) => search next n ((next a).foldl meet (queue, met))

/-- The new nodes of a list go to the end of both lists. -/
theorem exists_foldl_meet (l : List α) (s : List α × List α) :
    ∃ new : List α, l.foldl meet s = (s.1 ++ new, s.2 ++ new) ∧ new.Nodup ∧ (∀ a ∈ new, a ∉ s.2) ∧
      (∀ a ∈ new, a ∈ l) ∧ ∀ a ∈ l, a ∈ s.2 ++ new := by
  induction l generalizing s with
  | nil => exact ⟨[], by simp⟩
  | cons a l ih =>
    rw [List.foldl_cons, meet]
    split_ifs with ha
    · obtain ⟨new, heq, hnodup, hfresh, hsub, hall⟩ := ih s
      refine ⟨new, heq, hnodup, hfresh, fun b hb => List.mem_cons_of_mem a (hsub b hb), ?_⟩
      exact List.forall_mem_cons.mpr ⟨List.mem_append_left _ ha, hall⟩
    · obtain ⟨new, heq, hnodup, hfresh, hsub, hall⟩ := ih (s.1 ++ [a], s.2 ++ [a])
      refine ⟨a :: new, by simpa using heq, ?_, ?_, ?_, ?_⟩
      · exact List.nodup_cons.mpr ⟨fun h => hfresh a h (by simp), hnodup⟩
      · exact List.forall_mem_cons.mpr
          ⟨ha, fun b hb h => hfresh b hb (List.mem_append_left _ h)⟩
      · exact List.forall_mem_cons.mpr
          ⟨List.mem_cons_self, fun b hb => List.mem_cons_of_mem a (hsub b hb)⟩
      · simpa using hall

variable {next : α → List α} {n : ℕ} {queue met out : List α}

/-- What a search that ends has met, from any state of it: what was met is kept, no node twice, all
can be reached from the queue, and what leaves the queue has its successors met. -/
theorem search_spec (h : search next n (queue, met) = some out) (hnodup : met.Nodup) :
    out.Nodup ∧ (∀ a ∈ met, a ∈ out) ∧
      (∀ a ∈ out, a ∈ met ∨ ∃ b ∈ queue, ReflTransGen (fun a b => b ∈ next a) b a) ∧
      ∀ a ∈ out, (a ∈ queue ∨ a ∉ met) → ∀ b ∈ next a, b ∈ out := by
  induction n generalizing queue met with
  | zero =>
    cases queue with
    | cons a queue => cases h
    | nil =>
      cases h
      exact ⟨hnodup, fun _ ha => ha, fun _ ha => .inl ha, fun a ha hq => by simp [ha] at hq⟩
  | succ n ih =>
    cases queue with
    | nil =>
      cases h
      exact ⟨hnodup, fun _ ha => ha, fun _ ha => .inl ha, fun a ha hq => by simp [ha] at hq⟩
    | cons a queue =>
      rw [search] at h
      obtain ⟨new, heq, hnew, hfresh, hsub, hall⟩ := exists_foldl_meet (next a) (queue, met)
      rw [heq] at h
      obtain ⟨hout, hkeep, hreach, hclosed⟩ := ih h
        (List.nodup_append.mpr ⟨hnodup, hnew, fun b hb c hc hbc => hfresh c hc (hbc ▸ hb)⟩)
      refine ⟨hout, fun b hb => hkeep b (List.mem_append_left _ hb), fun b hb => ?_, ?_⟩
      · -- The new nodes are successors of the node that leaves the queue.
        have hstep : ∀ c ∈ new, ReflTransGen (fun a b => b ∈ next a) a c :=
          fun c hc => .single (hsub c hc)
        rcases hreach b hb with hb | ⟨c, hc, hcb⟩
        · rcases List.mem_append.mp hb with hb | hb
          · exact .inl hb
          · exact .inr ⟨a, List.mem_cons_self, hstep b hb⟩
        · rcases List.mem_append.mp hc with hc | hc
          · exact .inr ⟨c, List.mem_cons_of_mem a hc, hcb⟩
          · exact .inr ⟨a, List.mem_cons_self, (hstep c hc).trans hcb⟩
      · intro b hb hq c hc
        by_cases hba : b = a
        · subst hba
          exact hkeep c (hall c hc)
        · refine hclosed b hb ?_ c hc
          by_cases hbnew : b ∈ new
          · exact .inl (List.mem_append_right _ hbnew)
          · rcases hq with hq | hq
            · exact .inl (List.mem_append_left _ ((List.mem_cons.mp hq).resolve_left hba))
            · exact .inr fun h => (List.mem_append.mp h).elim hq hbnew

/-- **What the search meets** from a node: just what can be reached from it. -/
theorem mem_search_iff {start : α} (h : search next n ([start], [start]) = some out) (a : α) :
    a ∈ out ↔ ReflTransGen (fun a b => b ∈ next a) start a := by
  obtain ⟨-, hkeep, hreach, hclosed⟩ := search_spec h (List.nodup_singleton start)
  constructor
  · intro ha
    rcases hreach a ha with ha | ⟨b, hb, hba⟩
    · exact List.mem_singleton.mp ha ▸ .refl
    · exact List.mem_singleton.mp hb ▸ hba
  · intro ha
    induction ha with
    | refl => exact hkeep start (List.mem_singleton.mpr rfl)
    | tail _ hstep ih => exact hclosed _ ih (by tauto) _ hstep

/-- Every node leaves the queue once. -/
theorem search_isSome {nodes : Finset α} (hnext : ∀ a ∈ nodes, ∀ b ∈ next a, b ∈ nodes)
    (hqueue : ∀ a ∈ queue, a ∈ nodes)
    (hn : queue.length + (nodes.filter (· ∉ met)).card ≤ n) :
    ∃ out, search next n (queue, met) = some out := by
  induction n generalizing queue met with
  | zero =>
    cases queue with
    | nil => exact ⟨met, rfl⟩
    | cons a queue => simp at hn
  | succ n ih =>
    cases queue with
    | nil => exact ⟨met, rfl⟩
    | cons a queue =>
      obtain ⟨new, heq, hnew, hfresh, hsub, -⟩ := exists_foldl_meet (next a) (queue, met)
      rw [search, heq]
      have ha : a ∈ nodes := hqueue a List.mem_cons_self
      have hin : ∀ b ∈ new, b ∈ nodes := fun b hb => hnext a ha b (hsub b hb)
      refine ih (fun b hb => ?_) ?_
      · rcases List.mem_append.mp hb with hb | hb
        · exact hqueue b (List.mem_cons_of_mem a hb)
        · exact hin b hb
      · -- What is new in the queue was not met before.
        have hcard : (nodes.filter (· ∉ met ++ new)).card + new.length ≤
            (nodes.filter (· ∉ met)).card := by
          rw [← List.toFinset_card_of_nodup hnew, ← Finset.card_union_of_disjoint]
          · refine Finset.card_le_card fun b hb => ?_
            simp only [Finset.mem_union, Finset.mem_filter, List.mem_append, List.mem_toFinset] at *
            rcases hb with hb | hb
            · exact ⟨hb.1, fun h => hb.2 (.inl h)⟩
            · exact ⟨hin b hb, hfresh b hb⟩
          · refine Finset.disjoint_left.mpr fun b hb hb' => ?_
            exact (Finset.mem_filter.mp hb).2 (List.mem_append_right _ (List.mem_toFinset.mp hb'))
        rw [List.length_cons] at hn
        rw [List.length_append]
        dsimp only
        omega

end BreadthFirst

import Mathlib.Order.Bounds.Basic
import Mathlib.Order.Lattice
import Mathlib.Logic.Function.Basic

/-!
# Maps that join what is written to a key

A flow-insensitive analysis keeps one value for a key, and joins what is bound to the key into it.
A value may also be put in place of what is there. An entry is the least upper bound of what has
been written to its key since the last value that was put there, and covers nothing else.

## Main results

* `isLUB_run` — what an entry is
* `covers_iff` — what an entry covers
-/

namespace JoinMap

variable {κ α : Type*} [DecidableEq κ]

/-- A write of a value to a key. -/
inductive Write (κ α : Type*) where
  | join (key : κ) (value : α)
  | put (key : κ) (value : α)

/-- What was written to a key since the last value was put there. -/
def held (key : κ) : List (Write κ α) → List α → List α
  | [], values => values
  | .join k a :: ws, values => held key ws (if k = key then a :: values else values)
  | .put k a :: ws, values => held key ws (if k = key then [a] else values)

variable [SemilatticeSup α]

/-- A value joined into an entry. -/
def joined (a : α) : Option α → α
  | some b => b ⊔ a
  | none => a

/-- The map after a write. -/
def write (m : κ → Option α) : Write κ α → κ → Option α
  | .join k a => Function.update m k (some (joined a (m k)))
  | .put k a => Function.update m k (some a)

def run (ws : List (Write κ α)) (m : κ → Option α) : κ → Option α := ws.foldl write m

theorem run_append (ws ws' : List (Write κ α)) (m : κ → Option α) :
    run (ws ++ ws') m = run ws' (run ws m) := List.foldl_append

/-- The entry is the least upper bound of these values, and is missing where there are none. -/
def Holds (entry : Option α) (values : List α) : Prop :=
  (entry = none ∧ values = []) ∨ ∃ e, entry = some e ∧ values ≠ [] ∧ IsLUB {a | a ∈ values} e

theorem holds_singleton (a : α) : Holds (some a) [a] := by
  refine .inr ⟨a, rfl, List.cons_ne_nil _ _, ?_⟩
  have hset : {x | x ∈ [a]} = {a} := Set.ext fun _ => List.mem_singleton
  rw [hset]
  exact isLUB_singleton

theorem Holds.join {entry : Option α} {values : List α} (h : Holds entry values) (a : α) :
    Holds (some (joined a entry)) (a :: values) := by
  obtain ⟨rfl, rfl⟩ | ⟨e, rfl, -, hlub⟩ := h
  · exact holds_singleton a
  · refine .inr ⟨e ⊔ a, rfl, List.cons_ne_nil _ _, ?_⟩
    have hset : {x | x ∈ a :: values} = {x | x ∈ values} ∪ {a} := by
      ext x
      simp [or_comm]
    rw [hset]
    exact hlub.union isLUB_singleton

theorem holds_run (key : κ) (ws : List (Write κ α)) (m : κ → Option α) {values : List α}
    (h : Holds (m key) values) : Holds (run ws m key) (held key ws values) := by
  induction ws generalizing m values with
  | nil => exact h
  | cons w ws ih =>
    cases w with
    | join k a =>
      refine ih (write m (.join k a)) ?_
      by_cases hk : k = key
      · subst hk
        rw [write, Function.update_self, if_pos rfl]
        exact h.join a
      · rw [write, Function.update_of_ne (Ne.symm hk), if_neg hk]
        exact h
    | put k a =>
      refine ih (write m (.put k a)) ?_
      by_cases hk : k = key
      · subst hk
        rw [write, Function.update_self, if_pos rfl]
        exact holds_singleton a
      · rw [write, Function.update_of_ne (Ne.symm hk), if_neg hk]
        exact h

/-- **An entry.** -/
theorem isLUB_run {key : κ} {ws : List (Write κ α)} {e : α}
    (h : run ws (fun _ => none) key = some e) :
    held key ws [] ≠ [] ∧ IsLUB {a | a ∈ held key ws []} e := by
  obtain ⟨hnone, -⟩ | ⟨e', he', hne, hlub⟩ := holds_run key ws (fun _ => none) (.inl ⟨rfl, rfl⟩)
  · rw [h] at hnone
    cases hnone
  · rw [h] at he'
    cases he'
    exact ⟨hne, hlub⟩

/-- The entry of a key is there and lies above the value. -/
def Covers (entry : Option α) (a : α) : Prop := ∃ e, entry = some e ∧ a ≤ e

/-- **What an entry covers.** A value lies below it just where every upper bound of what the entry
holds is above the value. -/
theorem covers_iff (key : κ) (ws : List (Write κ α)) (a : α) :
    Covers (run ws (fun _ => none) key) a ↔
      held key ws [] ≠ [] ∧ ∀ u, (∀ x ∈ held key ws [], x ≤ u) → a ≤ u := by
  constructor
  · rintro ⟨e, he, hle⟩
    obtain ⟨hne, hlub⟩ := isLUB_run he
    exact ⟨hne, fun u hu => hle.trans (hlub.2 hu)⟩
  · rintro ⟨hne, hall⟩
    obtain ⟨-, hnil⟩ | ⟨e, he, -, hlub⟩ := holds_run key ws (fun _ => none) (.inl ⟨rfl, rfl⟩)
    · exact absurd hnil hne
    · exact ⟨e, he, hall e hlub.1⟩

theorem covers_of_mem {key : κ} {ws : List (Write κ α)} {a : α} (h : a ∈ held key ws []) :
    Covers (run ws (fun _ => none) key) a :=
  (covers_iff key ws a).mpr ⟨List.ne_nil_of_mem h, fun _ hu => hu a h⟩

end JoinMap

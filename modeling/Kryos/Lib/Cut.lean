import Mathlib.Data.List.Infix
import Mathlib.Algebra.Order.Group.Nat

/-!
# Cutting a list at a pattern

The part of a list before the first occurrence of a pattern and the part behind it, and the pieces
that all occurrences leave.

## Main results

* `Cut.cut_extend` — what is before the first occurrence does not depend on what is behind it
* `Cut.pieces_flatten` — lines that do not hold the first element of the terminator are read back
-/

namespace Cut

variable {α : Type*} [DecidableEq α]

/-- The parts before and behind the first occurrence of `p`. -/
def cut (p : List α) : List α → Option (List α × List α)
  | [] => if p = [] then some ([], []) else none
  | x :: xs =>
    if p <+: x :: xs then some ([], (x :: xs).drop p.length)
    else (cut p xs).map fun parts => (x :: parts.1, parts.2)

variable {p xs a b : List α} {c : α}

theorem cut_of_front (h : p <+: xs) : cut p xs = some ([], xs.drop p.length) := by
  cases xs with
  | nil =>
    rw [cut, if_pos (List.prefix_nil.mp h), List.drop_nil]
  | cons x xs => exact if_pos h

theorem cut_cons_of_not_front {x : α} (h : ¬p <+: x :: xs) :
    cut p (x :: xs) = (cut p xs).map fun parts => (x :: parts.1, parts.2) :=
  if_neg h

theorem cut_of_length_lt (h : xs.length < p.length) : cut p xs = none := by
  induction xs with
  | nil => exact if_neg (List.length_pos_iff.mp h)
  | cons x xs ih =>
    rw [cut_cons_of_not_front fun hpre => absurd hpre.length_le (Nat.not_le_of_lt h),
      ih ((Nat.lt_succ_self _).trans h), Option.map_none]

theorem eq_of_cut (h : cut p xs = some (a, b)) : xs = a ++ (p ++ b) := by
  induction xs generalizing a with
  | nil =>
    rw [cut, Option.ite_none_right_eq_some] at h
    obtain ⟨rfl, heq⟩ := h
    cases heq
    rfl
  | cons x xs ih =>
    by_cases hpre : p <+: x :: xs
    · rw [cut_of_front hpre] at h
      cases h
      obtain ⟨t, ht⟩ := hpre
      rw [← ht, List.drop_left, List.nil_append]
    · rw [cut_cons_of_not_front hpre] at h
      obtain ⟨⟨a', b'⟩, hcut, heq⟩ := Option.map_eq_some_iff.mp h
      cases heq
      rw [ih hcut, List.cons_append]

/-- What is before the first occurrence does not depend on what is behind it. -/
theorem cut_extend (h : cut p xs = some (a, b)) (d : List α) :
    cut p (a ++ (p ++ d)) = some (a, d) := by
  induction xs generalizing a with
  | nil =>
    rw [cut, Option.ite_none_right_eq_some] at h
    obtain ⟨rfl, heq⟩ := h
    cases heq
    exact cut_of_front List.nil_prefix
  | cons x xs ih =>
    by_cases hpre : p <+: x :: xs
    · rw [cut_of_front hpre] at h
      cases h
      rw [List.nil_append, cut_of_front (List.prefix_append p d), List.drop_left]
    · have hxs := h
      rw [cut_cons_of_not_front hpre] at h
      obtain ⟨⟨a', b'⟩, hcut, heq⟩ := Option.map_eq_some_iff.mp h
      cases heq
      have hnot : ¬p <+: x :: (a' ++ (p ++ d)) := by
        -- an occurrence at the front would already lie within `x :: a' ++ p`
        intro hocc
        have hle : p.length ≤ (x :: (a' ++ p)).length := by
          rw [List.length_cons, List.length_append]
          exact (Nat.le_add_left _ _).trans (Nat.le_succ _)
        have hshort : p <+: x :: (a' ++ p) := by
          refine List.prefix_of_prefix_length_le hocc ⟨d, ?_⟩ hle
          rw [List.cons_append, List.append_assoc]
        refine hpre (hshort.trans ⟨b', ?_⟩)
        rw [eq_of_cut hcut, List.cons_append, List.append_assoc]
      rw [List.cons_append, cut_cons_of_not_front hnot, ih hcut, Option.map_some]

/-! ## Patterns of one element -/

omit [DecidableEq α] in
theorem singleton_prefix_cons {x : α} : [c] <+: x :: xs ↔ c = x := by
  rw [List.cons_prefix_cons, and_iff_left List.nil_prefix]

theorem cut_of_not_mem (h : c ∉ xs) : cut [c] xs = none := by
  induction xs with
  | nil => exact if_neg (List.cons_ne_nil c [])
  | cons x xs ih =>
    obtain ⟨hne, hmem⟩ := not_or.mp (mt List.mem_cons.mpr h)
    rw [cut_cons_of_not_front (mt singleton_prefix_cons.mp hne), ih hmem, Option.map_none]

theorem cut_singleton (h : c ∉ a) (b : List α) : cut [c] (a ++ c :: b) = some (a, b) := by
  induction a with
  | nil => exact cut_of_front (singleton_prefix_cons.mpr rfl)
  | cons x a ih =>
    obtain ⟨hne, hmem⟩ := not_or.mp (mt List.mem_cons.mpr h)
    rw [List.cons_append, cut_cons_of_not_front (mt singleton_prefix_cons.mp hne), ih hmem,
      Option.map_some]

theorem cut_singleton_eq_some (h : cut [c] xs = some (a, b)) : xs = a ++ c :: b ∧ c ∉ a := by
  have hxs := eq_of_cut h
  refine ⟨hxs, fun hmem => ?_⟩
  obtain ⟨a₁, a₂, rfl, ha₁⟩ := List.eq_append_cons_of_mem hmem
  rw [hxs, List.append_assoc, List.cons_append, cut_singleton ha₁, Option.some.injEq,
    Prod.mk.injEq] at h
  exact absurd h.1 (by simp)

/-! ## Pieces -/

theorem length_lt_of_cut (hp : p ≠ []) {parts : List α × List α} (h : cut p xs = some parts) :
    parts.2.length < xs.length := by
  have hlen := congrArg List.length (eq_of_cut h)
  have hpos := List.length_pos_iff.mpr hp
  rw [List.length_append, List.length_append] at hlen
  omega

/-- What the occurrences of `p` leave, one after another. -/
def pieces (p xs : List α) : List (List α) :=
  if hp : p = [] then [xs]
  else
    match h : cut p xs with
    | none => [xs]
    | some parts =>
      have := length_lt_of_cut hp h
      parts.1 :: pieces p parts.2
termination_by xs.length

theorem pieces_of_cut_eq_none (h : cut p xs = none) : pieces p xs = [xs] := by
  rw [pieces]
  split
  · rfl
  · split
    · rfl
    · simp_all

theorem pieces_of_cut (hp : p ≠ []) (h : cut p xs = some (a, b)) :
    pieces p xs = a :: pieces p b := by
  rw [pieces, dif_neg hp]
  split <;> simp_all

/-- A terminator whose first element is not in a line ends the line. -/
theorem cut_line {line : List α} {q : List α} (h : c ∉ line) (d : List α) :
    cut (c :: q) (line ++ (c :: q ++ d)) = some (line, d) := by
  induction line with
  | nil =>
    rw [List.nil_append, cut_of_front (List.prefix_append _ d), List.drop_left]
  | cons x line ih =>
    obtain ⟨hne, hmem⟩ := not_or.mp (mt List.mem_cons.mpr h)
    have hnot : ¬c :: q <+: x :: (line ++ (c :: q ++ d)) := fun hpre =>
      hne (List.cons_prefix_cons.mp hpre).1
    rw [List.cons_append, cut_cons_of_not_front hnot, ih hmem, Option.map_some]

/-- Terminated lines are read back, and what is behind the last is split on its own. -/
theorem pieces_flatten {lines : List (List α)} {q : List α} (h : ∀ line ∈ lines, c ∉ line)
    (d : List α) :
    pieces (c :: q) ((lines.map fun line => line ++ c :: q).flatten ++ d) =
      lines ++ pieces (c :: q) d := by
  induction lines with
  | nil => rfl
  | cons line lines ih =>
    obtain ⟨hline, hlines⟩ := List.forall_mem_cons.mp h
    rw [List.map_cons, List.flatten_cons, List.append_assoc, List.append_assoc,
      pieces_of_cut (List.cons_ne_nil c q) (cut_line hline _), ih hlines, List.cons_append]

end Cut

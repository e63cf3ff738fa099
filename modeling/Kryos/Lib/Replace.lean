import Mathlib.Data.List.Infix
import Mathlib.Algebra.Order.Group.Nat
import Mathlib.Algebra.Order.Ring.Int
import Mathlib.Tactic.Ring

/-!
# Replacing a pattern in a list

The occurrences of a pattern are replaced from left to right. A pattern whose first element stands
nowhere else in it cannot overlap with itself, so that all of its occurrences are replaced.

## Main results

* `length_replaced` — the length of the result, from the number of replacements
* `replaced_append_of_occurrences` — a part in which no occurrence starts is kept
-/

namespace Replace

variable {α : Type*} [DecidableEq α]

/-- The number of positions at which `p` occurs. -/
def occurrences (p : List α) : List α → ℕ
  | [] => 0
  | c :: s => (if p <+: c :: s then 1 else 0) + occurrences p s

/-- The occurrences of `p`, from left to right, replaced by `a`. -/
def replaced (p a : List α) : List α → List α
  | [] => []
  | c :: s =>
    if p <+: c :: s then a ++ replaced p a (s.drop (p.length - 1)) else c :: replaced p a s
termination_by s => s.length
decreasing_by
  · rw [List.length_drop, List.length_cons]
    omega
  · exact Nat.lt_succ_self _

/-- The number of replacements that `replaced` makes. -/
def replacements (p : List α) : List α → ℕ
  | [] => 0
  | c :: s =>
    if p <+: c :: s then replacements p (s.drop (p.length - 1)) + 1 else replacements p s
termination_by s => s.length
decreasing_by
  · rw [List.length_drop, List.length_cons]
    omega
  · exact Nat.lt_succ_self _

variable {p q a s x : List α} {b : α} {i : ℕ}

theorem replaced_nil : replaced p a [] = [] := by
  rw [replaced]

theorem replacements_nil : replacements p [] = 0 := by
  rw [replacements]

/-! ## From a position on -/

omit [DecidableEq α] in
theorem drop_succ_pred (hp : p ≠ []) : (s.drop (i + 1)).drop (p.length - 1) =
    s.drop (i + p.length) := by
  have hpos := List.length_pos_iff.mpr hp
  rw [List.drop_drop, show i + 1 + (p.length - 1) = i + p.length by omega]

theorem replaced_drop_of_front (hp : p ≠ []) (hi : i < s.length) (h : p <+: s.drop i) :
    replaced p a (s.drop i) = a ++ replaced p a (s.drop (i + p.length)) := by
  rw [List.drop_eq_getElem_cons hi] at h ⊢
  rw [replaced, if_pos h, drop_succ_pred hp]

theorem replaced_drop_of_not_front (hi : i < s.length) (h : ¬p <+: s.drop i) :
    replaced p a (s.drop i) = s[i] :: replaced p a (s.drop (i + 1)) := by
  rw [List.drop_eq_getElem_cons hi] at h ⊢
  rw [replaced, if_neg h]

theorem replacements_drop_of_front (hp : p ≠ []) (hi : i < s.length) (h : p <+: s.drop i) :
    replacements p (s.drop i) = replacements p (s.drop (i + p.length)) + 1 := by
  rw [List.drop_eq_getElem_cons hi] at h ⊢
  rw [replacements, if_pos h, drop_succ_pred hp]

theorem replacements_drop_of_not_front (hi : i < s.length) (h : ¬p <+: s.drop i) :
    replacements p (s.drop i) = replacements p (s.drop (i + 1)) := by
  rw [List.drop_eq_getElem_cons hi] at h ⊢
  rw [replacements, if_neg h]

theorem replaced_pattern (hp : p ≠ []) : replaced p a (p ++ s) = a ++ replaced p a s := by
  have hpos : 0 < (p ++ s).length := by
    rw [List.length_append]
    exact Nat.add_pos_left (List.length_pos_iff.mpr hp) _
  have h := replaced_drop_of_front (a := a) hp hpos (List.prefix_append p s)
  rwa [Nat.zero_add, List.drop_zero, List.drop_left] at h

theorem length_replaced (hp : p ≠ []) :
    ((replaced p a s).length : ℤ) =
      s.length + replacements p s * ((a.length : ℤ) - p.length) := by
  induction s using replaced.induct p with
  | case1 => rw [replaced_nil, replacements_nil]; simp
  | case2 c s hfront ih =>
    have hlen := hfront.length_le
    have hpos := List.length_pos_iff.mpr hp
    rw [List.length_cons] at hlen
    rw [replaced, if_pos hfront, replacements, if_pos hfront, List.length_append, Nat.cast_add, ih,
      List.length_drop, List.length_cons, Nat.cast_sub (by omega), Nat.cast_sub hpos]
    push_cast
    ring
  | case3 c s hfront ih =>
    rw [replaced, if_neg hfront, replacements, if_neg hfront, List.length_cons, List.length_cons,
      Nat.cast_succ, ih]
    push_cast
    ring

/-! ## Occurrences -/

theorem occurrences_le_append (p x s : List α) : occurrences p s ≤ occurrences p (x ++ s) := by
  induction x with
  | nil => exact le_rfl
  | cons c x ih => exact ih.trans (Nat.le_add_left _ _)

/-- A part in which no occurrence starts is kept. -/
theorem replaced_append_of_occurrences (h : occurrences p (x ++ s) = occurrences p s) :
    replaced p a (x ++ s) = x ++ replaced p a s := by
  induction x with
  | nil => rfl
  | cons c x ih =>
    have hle := occurrences_le_append p x s
    rw [List.cons_append, occurrences] at h
    have hfront : ¬p <+: c :: (x ++ s) := fun hfront => by
      rw [if_pos hfront] at h
      omega
    rw [if_neg hfront, Nat.zero_add] at h
    rw [List.cons_append, replaced, if_neg hfront, ih h, List.cons_append]

theorem occurrences_append_of_not_mem (hx : b ∉ x) :
    occurrences (b :: q) (x ++ s) = occurrences (b :: q) s := by
  induction x with
  | nil => rfl
  | cons c x ih =>
    obtain ⟨hne, hx'⟩ := not_or.mp (mt List.mem_cons.mpr hx)
    rw [List.cons_append, occurrences, if_neg, Nat.zero_add, ih hx']
    exact fun h => hne (List.cons_prefix_cons.mp h).1

theorem occurrences_pattern (hq : b ∉ q) :
    occurrences (b :: q) ((b :: q) ++ s) = occurrences (b :: q) s + 1 := by
  have hfront : b :: q <+: b :: (q ++ s) := List.prefix_append (b :: q) s
  rw [List.cons_append, occurrences, if_pos hfront,
    occurrences_append_of_not_mem hq, Nat.add_comm]

end Replace

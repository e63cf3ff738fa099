import Mathlib.Algebra.Order.Group.Int
import Mathlib.Data.List.Basic
import Mathlib.Tactic.SplitIfs

/-!
# Balanced brackets and depth counters

Lists in which the occurrences of an opening and a closing bracket match, and the two loops that
programs run over them with a depth counter: finding the bracket that closes a group, and splitting
at the separators outside all groups. Nothing here is specific to one program.

## Main definitions

* `Brackets.Balanced` — every bracket has its partner
* `Brackets.Flat` — balanced, and separators stand inside groups only

## Main results

* `Brackets.closeIndex_group` — the counter finds the partner of the first bracket
* `Brackets.splitTop_flat`, `Brackets.splitTop_sep` — the counter splits exactly at the separators
  between flat pieces
-/

namespace Brackets

variable {α : Type*}

inductive Balanced (op cl : α) : List α → Prop
  | nil : Balanced op cl []
  | plain {x : α} {xs : List α} (hop : x ≠ op) (hcl : x ≠ cl) (h : Balanced op cl xs) :
      Balanced op cl (x :: xs)
  | group {xs ys : List α} (hxs : Balanced op cl xs) (hys : Balanced op cl ys) :
      Balanced op cl (op :: (xs ++ cl :: ys))

inductive Flat (op cl sep : α) : List α → Prop
  | nil : Flat op cl sep []
  | plain {x : α} {xs : List α} (hop : x ≠ op) (hcl : x ≠ cl) (hsep : x ≠ sep)
      (h : Flat op cl sep xs) : Flat op cl sep (x :: xs)
  | group {xs ys : List α} (hxs : Balanced op cl xs) (hys : Flat op cl sep ys) :
      Flat op cl sep (op :: (xs ++ cl :: ys))

section Build

variable {op cl sep : α} {xs ys : List α}

theorem Flat.balanced (h : Flat op cl sep xs) : Balanced op cl xs := by
  induction h with
  | nil => exact Balanced.nil
  | plain hop hcl _ _ ih => exact Balanced.plain hop hcl ih
  | group hxs _ ih => exact Balanced.group hxs ih

theorem Flat.append (hxs : Flat op cl sep xs) (hys : Flat op cl sep ys) :
    Flat op cl sep (xs ++ ys) := by
  induction hxs with
  | nil => exact hys
  | plain hop hcl hsep _ ih => exact Flat.plain hop hcl hsep ih
  | group hinner _ ih =>
    rw [List.cons_append, List.append_assoc]
    exact Flat.group hinner ih

theorem Balanced.append (hxs : Balanced op cl xs) (hys : Balanced op cl ys) :
    Balanced op cl (xs ++ ys) := by
  induction hxs with
  | nil => exact hys
  | plain hop hcl _ ih => exact Balanced.plain hop hcl ih
  | group hinner _ _ ih =>
    rw [List.cons_append, List.append_assoc]
    exact Balanced.group hinner ih

theorem Flat.of_forall (h : ∀ x ∈ xs, x ≠ op ∧ x ≠ cl ∧ x ≠ sep) : Flat op cl sep xs := by
  induction xs with
  | nil => exact Flat.nil
  | cons x xs ih =>
    obtain ⟨⟨hop, hcl, hsep⟩, hrest⟩ := List.forall_mem_cons.mp h
    exact Flat.plain hop hcl hsep (ih hrest)

end Build

variable [DecidableEq α] (op cl sep : α)

/-! ## The closing bracket -/

/-- The index, counted from `i`, of the bracket that brings the depth down to zero. -/
def closeIndex : ℤ → ℕ → List α → Option ℕ
  | _, _, [] => none
  | depth, i, x :: xs =>
    if x = op then closeIndex (depth + 1) (i + 1) xs
    else if x = cl then
      if depth - 1 = 0 then some i else closeIndex (depth - 1) (i + 1) xs
    else closeIndex depth (i + 1) xs

variable {op cl sep}

/-- Inside a group, a balanced part leaves the depth as it is. -/
theorem closeIndex_balanced {xs : List α} (hne : op ≠ cl) (h : Balanced op cl xs) {depth : ℤ}
    (hdepth : 0 < depth) (i : ℕ) (rest : List α) :
    closeIndex op cl depth i (xs ++ rest) = closeIndex op cl depth (i + xs.length) rest := by
  induction h generalizing depth i rest with
  | nil => rfl
  | plain hop hcl _ ih =>
    rw [List.cons_append, closeIndex, if_neg hop, if_neg hcl, ih hdepth, List.length_cons]
    congr 1
    omega
  | @group xs ys _ _ ihx ihy =>
    rw [List.cons_append, closeIndex, if_pos rfl, List.append_assoc, ihx (by omega),
      List.cons_append, closeIndex, if_neg hne.symm, if_pos rfl, if_neg (by omega),
      Int.add_sub_cancel, ihy hdepth, List.length_cons, List.length_append, List.length_cons]
    congr 1
    omega

theorem closeIndex_group {xs : List α} (hne : op ≠ cl) (h : Balanced op cl xs) (rest : List α) :
    closeIndex op cl 0 0 (op :: (xs ++ cl :: rest)) = some (xs.length + 1) := by
  rw [closeIndex, if_pos rfl, closeIndex_balanced hne h (by decide), closeIndex, if_neg hne.symm,
    if_pos rfl, if_pos (by decide), Nat.add_comm, Nat.zero_add]

/-! ## Splitting outside groups -/

variable (op cl sep)

/-- The parts between the separators at depth zero; `cur` is the part that is being read. -/
def splitTop : ℤ → List α → List α → List (List α)
  | _, cur, [] => [cur]
  | depth, cur, x :: xs =>
    if x = op then splitTop (depth + 1) (cur ++ [x]) xs
    else if x = cl then splitTop (depth - 1) (cur ++ [x]) xs
    else if x = sep ∧ depth = 0 then cur :: splitTop depth [] xs
    else splitTop depth (cur ++ [x]) xs

variable {op cl sep}

theorem splitTop_balanced {xs : List α} (hne : op ≠ cl) (h : Balanced op cl xs) {depth : ℤ}
    (hdepth : 0 < depth) (cur rest : List α) :
    splitTop op cl sep depth cur (xs ++ rest) = splitTop op cl sep depth (cur ++ xs) rest := by
  induction h generalizing depth cur rest with
  | nil => rw [List.append_nil, List.nil_append]
  | plain hop hcl _ ih =>
    rw [List.cons_append, splitTop, if_neg hop, if_neg hcl, if_neg (by omega), ih hdepth,
      List.append_assoc]
    rfl
  | @group xs ys _ _ ihx ihy =>
    rw [List.cons_append, splitTop, if_pos rfl, List.append_assoc, ihx (by omega),
      List.cons_append, splitTop, if_neg hne.symm, if_pos rfl, Int.add_sub_cancel, ihy hdepth]
    simp only [List.append_assoc, List.cons_append, List.nil_append]

theorem length_le_of_mem_splitTop {depth : ℤ} {cur xs part : List α}
    (h : part ∈ splitTop op cl sep depth cur xs) : part.length ≤ cur.length + xs.length := by
  induction xs generalizing depth cur with
  | nil =>
    rw [splitTop, List.mem_singleton] at h
    rw [h]
    exact Nat.le_add_right _ _
  | cons x xs ih =>
    have hcur : (cur ++ [x]).length = cur.length + 1 := List.length_append
    rw [List.length_cons]
    rw [splitTop] at h
    split_ifs at h
    · exact (ih h).trans (by omega)
    · exact (ih h).trans (by omega)
    · rcases List.mem_cons.mp h with rfl | h
      · exact Nat.le_add_right _ _
      · exact (ih h).trans (by rw [List.length_nil]; omega)
    · exact (ih h).trans (by omega)

/-- A flat part is read without a split. -/
theorem splitTop_flat {xs : List α} (hne : op ≠ cl) (h : Flat op cl sep xs)
    (cur rest : List α) :
    splitTop op cl sep 0 cur (xs ++ rest) = splitTop op cl sep 0 (cur ++ xs) rest := by
  induction h generalizing cur rest with
  | nil => rw [List.append_nil, List.nil_append]
  | plain hop hcl hsep _ ih =>
    rw [List.cons_append, splitTop, if_neg hop, if_neg hcl, if_neg (fun h => hsep h.1), ih,
      List.append_assoc]
    rfl
  | @group xs ys hinner _ ih =>
    rw [List.cons_append, splitTop, if_pos rfl, List.append_assoc,
      splitTop_balanced hne hinner (by decide), List.cons_append, splitTop, if_neg hne.symm,
      if_pos rfl, show (0 : ℤ) + 1 - 1 = 0 from rfl, ih]
    simp only [List.append_assoc, List.cons_append, List.nil_append]

theorem splitTop_sep (hop : sep ≠ op) (hcl : sep ≠ cl) (cur rest : List α) :
    splitTop op cl sep 0 cur (sep :: rest) = cur :: splitTop op cl sep 0 [] rest := by
  rw [splitTop, if_neg hop, if_neg hcl, if_pos ⟨rfl, rfl⟩]

end Brackets

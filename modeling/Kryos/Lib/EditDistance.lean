import Mathlib.Data.List.Basic
import Mathlib.Order.Bounds.Basic
import Mathlib.Algebra.Order.Group.Nat

/-!
# Edit distance

The least number of insertions, deletions and substitutions that turn one list into another, and
the recursion that computes it.

## Main results

* `isLeast_distance` — the recursion computes the least number of edits
* `distance_comm`, `distance_triangle`, `distance_eq_zero_iff` — it is a metric
* `distance_concat` — the recursion from the other end, on which a table by prefixes is built
-/

namespace EditDistance

variable {α β : Type*}

/-- One insertion, deletion or substitution. -/
inductive Edit : List α → List α → Prop
  | insert (x : α) (xs : List α) : Edit xs (x :: xs)
  | delete (x : α) (xs : List α) : Edit (x :: xs) xs
  | subst (x y : α) (xs : List α) : Edit (x :: xs) (y :: xs)
  | skip (x : α) {xs ys : List α} (h : Edit xs ys) : Edit (x :: xs) (x :: ys)

/-- So many edits, one after the other. -/
inductive Edits : ℕ → List α → List α → Prop
  | refl (xs : List α) : Edits 0 xs xs
  | step {n : ℕ} {xs ys zs : List α} (h : Edit xs ys) (rest : Edits n ys zs) : Edits (n + 1) xs zs

/-- The distance, by the first elements. -/
def distance [DecidableEq α] : List α → List α → ℕ
  | [], ys => ys.length
  | x :: xs, [] => (x :: xs).length
  | x :: xs, y :: ys =>
    min (min (distance xs (y :: ys) + 1) (distance (x :: xs) ys + 1))
      (distance xs ys + if x = y then 0 else 1)

variable {xs ys zs : List α} {n m : ℕ}

/-! ## Edits -/

theorem Edit.symm (h : Edit xs ys) : Edit ys xs := by
  induction h with
  | insert x xs => exact .delete x xs
  | delete x xs => exact .insert x xs
  | subst x y xs => exact .subst y x xs
  | skip x _ ih => exact .skip x ih

theorem Edit.append_right (h : Edit xs ys) (zs : List α) : Edit (xs ++ zs) (ys ++ zs) := by
  induction h with
  | insert x xs => exact .insert x (xs ++ zs)
  | delete x xs => exact .delete x (xs ++ zs)
  | subst x y xs => exact .subst x y (xs ++ zs)
  | skip x _ ih => exact .skip x ih

theorem Edit.append_left (h : Edit xs ys) (zs : List α) : Edit (zs ++ xs) (zs ++ ys) := by
  induction zs with
  | nil => exact h
  | cons z zs ih => exact .skip z ih

theorem Edit.reverse (h : Edit xs ys) : Edit xs.reverse ys.reverse := by
  induction h with
  | insert x xs =>
    rw [List.reverse_cons]
    have h := Edit.append_left (.insert x []) xs.reverse
    rwa [List.append_nil] at h
  | delete x xs =>
    rw [List.reverse_cons]
    have h := Edit.append_left (.delete x []) xs.reverse
    rwa [List.append_nil] at h
  | subst x y xs =>
    rw [List.reverse_cons, List.reverse_cons]
    exact Edit.append_left (.subst x y []) xs.reverse
  | skip x _ ih =>
    rw [List.reverse_cons, List.reverse_cons]
    exact ih.append_right [x]

theorem Edits.trans (h : Edits n xs ys) (h' : Edits m ys zs) : Edits (n + m) xs zs := by
  induction h with
  | refl xs => rwa [Nat.zero_add]
  | step hedit _ ih =>
    rw [Nat.succ_add_eq_add_succ, Nat.add_succ]
    exact .step hedit (ih h')

theorem Edits.symm (h : Edits n xs ys) : Edits n ys xs := by
  induction h with
  | refl xs => exact .refl xs
  | step hedit _ ih => exact ih.trans (.step hedit.symm (.refl _))

theorem Edits.reverse (h : Edits n xs ys) : Edits n xs.reverse ys.reverse := by
  induction h with
  | refl xs => exact .refl xs.reverse
  | step hedit _ ih => exact .step hedit.reverse ih

theorem Edits.cons (x : α) (h : Edits n xs ys) : Edits n (x :: xs) (x :: ys) := by
  induction h with
  | refl xs => exact .refl (x :: xs)
  | step hedit _ ih => exact .step (.skip x hedit) ih

/-! ## The recursion -/

section Distance

variable [DecidableEq α]

theorem distance_nil_left (ys : List α) : distance [] ys = ys.length := by
  rw [distance]

theorem distance_nil_right (xs : List α) : distance xs [] = xs.length := by
  cases xs with
  | nil => exact distance_nil_left []
  | cons x xs => rw [distance]

theorem distance_cons (x y : α) (xs ys : List α) :
    distance (x :: xs) (y :: ys) =
      min (min (distance xs (y :: ys) + 1) (distance (x :: xs) ys + 1))
        (distance xs ys + if x = y then 0 else 1) := by
  rw [distance]

theorem distance_self (xs : List α) : distance xs xs = 0 := by
  induction xs with
  | nil => exact distance_nil_left []
  | cons x xs ih =>
    rw [distance_cons, if_pos rfl, ih]
    exact Nat.min_eq_right (Nat.zero_le _)

/-- The recursion makes as many edits as it counts. -/
theorem edits_distance (xs ys : List α) : Edits (distance xs ys) xs ys := by
  induction xs, ys using distance.induct with
  | case1 ys =>
    rw [distance_nil_left]
    induction ys with
    | nil => exact .refl []
    | cons y ys ih => exact .step (.insert y []) (ih.cons y)
  | case2 x xs =>
    rw [distance_nil_right]
    induction xs generalizing x with
    | nil => exact .step (.delete x []) (.refl [])
    | cons x' xs ih => exact .step (.delete x _) (ih x')
  | case3 x xs y ys hdelete hinsert hsubst =>
    rw [distance_cons]
    rcases Nat.le_total (min (distance xs (y :: ys) + 1) (distance (x :: xs) ys + 1))
      (distance xs ys + if x = y then 0 else 1) with h | h
    · rw [Nat.min_eq_left h]
      rcases Nat.le_total (distance xs (y :: ys) + 1) (distance (x :: xs) ys + 1) with h' | h'
      · rw [Nat.min_eq_left h']
        exact .step (.delete x xs) hdelete
      · rw [Nat.min_eq_right h']
        exact .step (.insert y (x :: xs)) (hinsert.cons y)
    · rw [Nat.min_eq_right h]
      split_ifs with hxy
      · subst hxy
        exact hsubst.cons x
      · exact .step (.subst x y xs) (hsubst.cons y)

theorem distance_cons_left_le (x : α) (xs zs : List α) :
    distance (x :: xs) zs ≤ distance xs zs + 1 := by
  cases zs with
  | nil => rw [distance_nil_right, distance_nil_right, List.length_cons]
  | cons z zs =>
    rw [distance_cons]
    omega

theorem distance_cons_right_le (z : α) (xs zs : List α) :
    distance xs (z :: zs) ≤ distance xs zs + 1 := by
  cases xs with
  | nil => rw [distance_nil_left, distance_nil_left, List.length_cons]
  | cons x xs =>
    rw [distance_cons]
    omega

theorem distance_cons_cons_le (x z : α) (xs zs : List α) :
    distance (x :: xs) (z :: zs) ≤ distance xs zs + 1 := by
  rw [distance_cons]
  split_ifs <;> omega

/-- One edit changes the distances to other lists by at most one. -/
theorem Edit.distance_le (h : Edit xs ys) (zs : List α) : distance xs zs ≤ distance ys zs + 1 := by
  induction h generalizing zs with
  | delete x xs => exact distance_cons_left_le x xs zs
  | insert x xs =>
    induction zs generalizing xs with
    | nil =>
      rw [distance_nil_right, distance_nil_right, List.length_cons]
      omega
    | cons z zs ih =>
      have hright := distance_cons_right_le z xs zs
      have hshorter := ih xs
      rw [distance_cons]
      split_ifs <;> omega
  | subst x y xs =>
    induction zs with
    | nil =>
      rw [distance_nil_right, distance_nil_right, List.length_cons, List.length_cons]
      omega
    | cons z zs ih =>
      have hleft := distance_cons_left_le x xs (z :: zs)
      have hright := distance_cons_right_le z (x :: xs) zs
      have hboth := distance_cons_cons_le x z xs zs
      rw [distance_cons y]
      split_ifs <;> omega
  | @skip x xs ys _ ih =>
    induction zs with
    | nil =>
      have hnil := ih []
      rw [distance_nil_right, distance_nil_right] at hnil ⊢
      rw [List.length_cons, List.length_cons]
      omega
    | cons z zs ih' =>
      have hdelete := ih (z :: zs)
      have hsubst := ih zs
      rw [distance_cons, distance_cons]
      split_ifs <;> omega

theorem Edits.distance_le (h : Edits n xs ys) : distance xs ys ≤ n := by
  induction h with
  | refl xs => rw [distance_self]
  | step hedit _ ih => exact (hedit.distance_le _).trans (Nat.succ_le_succ ih)

theorem isLeast_distance (xs ys : List α) : IsLeast {n | Edits n xs ys} (distance xs ys) :=
  ⟨edits_distance xs ys, fun _ h => Edits.distance_le h⟩

/-! ## The metric -/

theorem distance_comm (xs ys : List α) : distance xs ys = distance ys xs :=
  Nat.le_antisymm (edits_distance ys xs).symm.distance_le (edits_distance xs ys).symm.distance_le

theorem distance_triangle (xs ys zs : List α) :
    distance xs zs ≤ distance xs ys + distance ys zs :=
  ((edits_distance xs ys).trans (edits_distance ys zs)).distance_le

theorem distance_eq_zero_iff : distance xs ys = 0 ↔ xs = ys := by
  constructor
  · intro h
    have hedits := edits_distance xs ys
    rw [h] at hedits
    cases hedits
    rfl
  · rintro rfl
    exact distance_self xs

/-! ## From the other end -/

theorem distance_reverse (xs ys : List α) : distance xs.reverse ys.reverse = distance xs ys := by
  refine Nat.le_antisymm (edits_distance xs ys).reverse.distance_le ?_
  have h := (edits_distance xs.reverse ys.reverse).reverse.distance_le
  rwa [List.reverse_reverse, List.reverse_reverse] at h

/-- The distance, by the last elements. -/
theorem distance_concat (x y : α) (xs ys : List α) :
    distance (xs ++ [x]) (ys ++ [y]) =
      min (min (distance xs (ys ++ [y]) + 1) (distance (xs ++ [x]) ys + 1))
        (distance xs ys + if x = y then 0 else 1) := by
  have hcons := distance_cons x y xs.reverse ys.reverse
  rwa [← List.reverse_concat, ← List.reverse_concat, distance_reverse, distance_reverse,
    distance_reverse, distance_reverse] at hcons

/-- Only the equality of the elements counts. -/
theorem distance_map [DecidableEq β] {f : α → β} (hf : Function.Injective f) (xs ys : List α) :
    distance (xs.map f) (ys.map f) = distance xs ys := by
  induction xs, ys using distance.induct with
  | case1 ys => rw [List.map_nil, distance_nil_left, distance_nil_left, List.length_map]
  | case2 x xs => rw [List.map_nil, distance_nil_right, distance_nil_right, List.length_map]
  | case3 x xs y ys hdelete hinsert hsubst =>
    rw [List.map_cons] at hinsert
    rw [List.map_cons] at hdelete
    rw [List.map_cons, List.map_cons, distance_cons, distance_cons, hdelete, hinsert, hsubst]
    simp only [hf.eq_iff]

end Distance

end EditDistance

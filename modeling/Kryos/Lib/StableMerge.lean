import Mathlib.Algebra.Order.Group.Nat
import Mathlib.Data.List.Basic

/-!
# Merging runs

What a stable sort makes of a list, and how sorted runs of some width become runs of twice the
width by merging them two by two. The order is a total preorder, given by its decision.

## Main results

* `StableMerge.merge_stablySorted` — merging two sorted parts sorts the whole stably
* `StableMerge.runs_mergePass` — merging runs two by two
* `StableMerge.stablySorted_of_runs` — a run as wide as the list
-/

namespace StableMerge

variable {α : Type*} {le : α → α → Bool} {xs ys out out' : List α} {w : ℕ}

/-- A total preorder. -/
structure TotalPreorder (le : α → α → Bool) : Prop where
  trans : ∀ a b c, le a b = true → le b c = true → le a c = true
  total : ∀ a b, (le a b || le b a) = true

/-- The order does not tell the two apart. -/
def tied (le : α → α → Bool) (x y : α) : Bool := le x y && le y x

/-- A permutation in order, in which what is tied has kept its order. -/
structure StablySorted (le : α → α → Bool) (xs out : List α) : Prop where
  perm : out.Perm xs
  sorted : out.Pairwise fun x y => le x y = true
  stable : ∀ x, out.filter (tied le x) = xs.filter (tied le x)

theorem stablySorted_of_length_le_one (h : xs.length ≤ 1) : StablySorted le xs xs := by
  refine ⟨.refl xs, ?_, fun _ => rfl⟩
  match xs, h with
  | [], _ => exact .nil
  | [x], _ => exact List.pairwise_singleton _ x

/-- An element in front of everything that is tied with `x` is not. -/
theorem filter_merge (hle : TotalPreorder le) (hxs : xs.Pairwise fun x y => le x y = true)
    (hys : ys.Pairwise fun x y => le x y = true) (x : α) :
    (xs.merge ys le).filter (tied le x) = xs.filter (tied le x) ++ ys.filter (tied le x) := by
  induction xs generalizing ys with
  | nil => rw [List.nil_merge, List.filter_nil, List.nil_append]
  | cons a xs ihx =>
    induction ys with
    | nil => rw [List.merge_right, List.filter_nil, List.append_nil]
    | cons b ys ihy =>
      rw [List.cons_merge_cons]
      split_ifs with hab
      · rw [List.filter_cons, List.filter_cons, ihx hxs.tail hys]
        split_ifs <;> rfl
      · have hba : le b a = true := by
          have htotal := hle.total a b
          rw [Bool.not_eq_true] at hab
          rwa [hab, Bool.false_or] at htotal
        have ih := ihy hys.tail
        rw [List.filter_cons, ih]
        by_cases hb : tied le x b = true
        · -- what is tied with `b` is not in the other run, which `b` is strictly below
          have hnone : (a :: xs).filter (tied le x) = [] := by
            rw [List.filter_eq_nil_iff]
            intro z hz htied
            rw [tied, Bool.and_eq_true] at hb htied
            have haz : le a z = true := by
              rcases List.mem_cons.mp hz with rfl | hz
              · have hrefl := hle.total z z
                rwa [Bool.or_self] at hrefl
              · exact List.rel_of_pairwise_cons hxs hz
            exact hab (hle.trans _ _ _ haz (hle.trans _ _ _ htied.2 hb.1))
          rw [if_pos hb, hnone, List.nil_append, List.nil_append, List.filter_cons, if_pos hb]
        · rw [if_neg hb, List.filter_cons (x := b), if_neg hb]

/-- Merging two sorted parts. -/
theorem merge_stablySorted (hle : TotalPreorder le) (h : StablySorted le xs out)
    (h' : StablySorted le ys out') : StablySorted le (xs ++ ys) (out.merge out' le) where
  perm := (List.merge_perm_append le).trans (h.perm.append h'.perm)
  sorted := List.pairwise_merge hle.trans hle.total _ _ h.sorted h'.sorted
  stable x := by
    rw [filter_merge hle h.sorted h'.sorted, h.stable, h'.stable, List.filter_append]

theorem StablySorted.length_eq (h : StablySorted le xs out) : out.length = xs.length :=
  h.perm.length_eq

/-- One list cut into runs of width `w`, the last one maybe shorter, each sorted for itself. -/
inductive Runs (le : α → α → Bool) (w : ℕ) : List α → List α → Prop
  | last {xs out : List α} (hlen : xs.length ≤ w) (h : StablySorted le xs out) : Runs le w xs out
  | cons {xs out ys out' : List α} (hlen : xs.length = w) (h : StablySorted le xs out)
      (rest : Runs le w ys out') : Runs le w (xs ++ ys) (out ++ out')

theorem Runs.length_eq (h : Runs le w xs out) : out.length = xs.length := by
  induction h with
  | last _ h => exact h.length_eq
  | cons _ h _ ih => rw [List.length_append, List.length_append, h.length_eq, ih]

/-- Every element for itself. -/
theorem runs_one (xs : List α) : Runs le 1 xs xs := by
  induction xs with
  | nil =>
    have hnil : ([] : List α).length ≤ 1 := Nat.zero_le 1
    exact .last hnil (stablySorted_of_length_le_one hnil)
  | cons x xs ih =>
    have hone : [x].length = 1 := rfl
    exact .cons hone (stablySorted_of_length_le_one hone.le) ih

/-- A run as wide as the list. -/
theorem stablySorted_of_runs (h : Runs le w xs out) (hlen : xs.length ≤ w) :
    StablySorted le xs out := by
  cases h with
  | last _ h => exact h
  | @cons xs out ys out' hw h rest =>
    rw [List.length_append] at hlen
    obtain rfl : ys = [] := List.eq_nil_of_length_eq_zero (by omega)
    obtain rfl : out' = [] := List.eq_nil_of_length_eq_zero rest.length_eq
    rwa [List.append_nil, List.append_nil]

/-- Merge the runs of width `w` two by two. -/
def mergePass (le : α → α → Bool) (w : ℕ) (xs : List α) : List α :=
  if xs.length ≤ w ∨ w = 0 then xs
  else (xs.take w).merge ((xs.drop w).take w) le ++ mergePass le w (xs.drop (w + w))
  termination_by xs.length
  decreasing_by rw [List.length_drop]; omega

theorem mergePass_of_length_le (h : xs.length ≤ w) : mergePass le w xs = xs := by
  rw [mergePass, if_pos (.inl h)]

theorem mergePass_nil : mergePass le w [] = [] := mergePass_of_length_le (Nat.zero_le w)

/-- The first two runs. -/
theorem mergePass_append {run run' : List α} (hw : 0 < w) (hrun : run.length = w)
    (hrun' : run'.length = w ∨ run'.length ≤ w ∧ xs = []) :
    mergePass le w (run ++ run' ++ xs) = run.merge run' le ++ mergePass le w xs := by
  by_cases hnil : run' ++ xs = []
  · obtain ⟨rfl, rfl⟩ := List.append_eq_nil_iff.mp hnil
    rw [List.append_nil, List.append_nil, mergePass_of_length_le hrun.le,
      mergePass_nil, List.merge_right, List.append_nil]
  · have hpos := List.length_pos_iff.mpr hnil
    have htake : (run' ++ xs).take w = run' := by
      rcases hrun' with h | ⟨h, rfl⟩
      · exact List.take_left' h
      · rw [List.append_nil, List.take_of_length_le h]
    have hdrop : (run' ++ xs).drop w = xs := by
      rcases hrun' with h | ⟨h, rfl⟩
      · exact List.drop_left' h
      · rw [List.append_nil, List.drop_eq_nil_of_le h]
    rw [mergePass, if_neg (by simp only [List.append_assoc, List.length_append] at hpos ⊢; omega),
      List.append_assoc, List.take_left' hrun, List.drop_left' hrun, htake,
      ← List.drop_drop, List.drop_left' hrun, hdrop]

/-- The runs after one pass are twice as wide. -/
theorem runs_mergePass (hle : TotalPreorder le) (hw : 0 < w) (h : Runs le w xs out) :
    Runs le (w + w) xs (mergePass le w out) := by
  -- two runs at a time, so the induction is on the length
  induction hn : xs.length using Nat.strongRecOn generalizing xs out with
  | ind n ih =>
    cases h with
    | last hlen h =>
      rw [mergePass_of_length_le (h.length_eq.trans_le hlen)]
      exact .last (by omega) h
    | @cons run₁ out₁ rest₁ outs₁ hrun₁ h₁ hrest₁ =>
      cases hrest₁ with
      | last hlen h₂ =>
        have hpass : mergePass le w (out₁ ++ outs₁ ++ []) =
            out₁.merge outs₁ le ++ mergePass le w [] :=
          mergePass_append hw (h₁.length_eq.trans hrun₁)
            (.inr ⟨h₂.length_eq.trans_le hlen, rfl⟩)
        rw [List.append_nil, mergePass_nil, List.append_nil] at hpass
        rw [hpass]
        exact .last (by rw [List.length_append]; omega) (merge_stablySorted hle h₁ h₂)
      | @cons run₂ out₂ rest outs hrun₂ h₂ hrest =>
        rw [← List.append_assoc, ← List.append_assoc, mergePass_append hw
          (h₁.length_eq.trans hrun₁) (.inl (h₂.length_eq.trans hrun₂))]
        have hlt : rest.length < n := by
          simp only [List.length_append] at hn
          omega
        exact .cons (by rw [List.length_append]; omega) (merge_stablySorted hle h₁ h₂)
          (ih _ hlt hrest rfl)

end StableMerge

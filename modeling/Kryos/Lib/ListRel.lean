import Mathlib.Data.List.Forall2

/-!
# Lists that are related element by element

What a relation between the elements of two lists, `List.Forall₂`, says about the lists.
-/

namespace ListRel

variable {α β γ δ : Type*} {R : α → β → Prop}

variable {as : List α} {bs : List β}

theorem map_of_mem {S : γ → δ → Prop} {P : β → Prop} {f : α → γ} {g : β → δ}
    (h : List.Forall₂ R as bs) (hP : ∀ b ∈ bs, P b) (hS : ∀ a b, R a b → P b → S (f a) (g b)) :
    List.Forall₂ S (as.map f) (bs.map g) := by
  induction h with
  | nil => exact .nil
  | cons hab _ ih =>
    rw [List.forall_mem_cons] at hP
    exact .cons (hS _ _ hab hP.1) (ih hP.2)

theorem any_iff {p : α → Bool} {P Q : β → Prop} (h : List.Forall₂ R as bs) (hP : ∀ b ∈ bs, P b)
    (hQ : ∀ a b, R a b → P b → (p a = true ↔ Q b)) : as.any p = true ↔ ∃ b ∈ bs, Q b := by
  induction h with
  | nil => simp
  | cons hab _ ih =>
    rw [List.forall_mem_cons] at hP
    rw [List.any_cons, Bool.or_eq_true, hQ _ _ hab hP.1, ih hP.2]
    simp

/-- A relation that holds just of the elements of a kind. -/
theorem iff_left {S : α → β → Prop} {P : α → Prop} (h : List.Forall₂ R as bs)
    (hiff : ∀ a b, R a b → (S a b ↔ P a)) : List.Forall₂ S as bs ↔ ∀ a ∈ as, P a := by
  induction h with
  | nil => simp
  | cons hab _ ih => rw [List.forall₂_cons, ih, hiff _ _ hab, List.forall_mem_cons]

theorem iff_right {S : α → β → Prop} {Q : β → Prop} (h : List.Forall₂ R as bs)
    (hiff : ∀ a b, R a b → (S a b ↔ Q b)) : List.Forall₂ S as bs ↔ ∀ b ∈ bs, Q b :=
  have hflip : List.Forall₂ S as bs ↔ List.Forall₂ (flip S) bs as :=
    ⟨fun h => List.Forall₂.flip h, List.Forall₂.flip⟩
  hflip.trans (iff_left (R := flip R) h.flip fun b a => hiff a b)

theorem exists_mem_left {b : β} (h : List.Forall₂ R as bs) (hb : b ∈ bs) : ∃ a ∈ as, R a b := by
  induction h with
  | nil => cases hb
  | @cons a b' as _ hab _ ih =>
    obtain rfl | hb := List.mem_cons.mp hb
    · exact ⟨a, List.mem_cons_self, hab⟩
    · obtain ⟨a', ha', hR⟩ := ih hb
      exact ⟨a', List.mem_cons_of_mem a ha', hR⟩

theorem exists_mem_right {a : α} (h : List.Forall₂ R as bs) (ha : a ∈ as) : ∃ b ∈ bs, R a b :=
  exists_mem_left (R := flip R) h.flip ha

theorem exists_mem_iff {p : α → Prop} {q : β → Prop} (h : List.Forall₂ (fun a b => q b ↔ p a) as bs)
    : (∃ b ∈ bs, q b) ↔ ∃ a ∈ as, p a := by
  induction h with
  | nil => simp
  | cons hab _ ih => rw [List.exists_mem_cons_iff, List.exists_mem_cons_iff, hab, ih]

theorem exists_of_forall_mem (h : ∀ a ∈ as, ∃ b, R a b) : ∃ bs, List.Forall₂ R as bs := by
  induction as with
  | nil => exact ⟨[], .nil⟩
  | cons a as ih =>
    obtain ⟨b, hb⟩ := h a List.mem_cons_self
    obtain ⟨bs, hbs⟩ := ih fun a' ha' => h a' (List.mem_cons_of_mem a ha')
    exact ⟨b :: bs, .cons hb hbs⟩

/-- The element that belongs to one in the middle, and what stands on both sides. -/
theorem split_left {as' : List α} {a : α} (h : List.Forall₂ R (as ++ a :: as') bs) :
    ∃ bs₁ b bs₂, bs = bs₁ ++ b :: bs₂ ∧ List.Forall₂ R as bs₁ ∧ R a b ∧ List.Forall₂ R as' bs₂ := by
  induction as generalizing bs with
  | nil =>
    obtain ⟨b, bs₂, hab, h₂, rfl⟩ := List.forall₂_cons_left_iff.mp h
    exact ⟨[], b, bs₂, rfl, .nil, hab, h₂⟩
  | cons a' as ih =>
    obtain ⟨b', bs', hab', h', rfl⟩ := List.forall₂_cons_left_iff.mp h
    obtain ⟨bs₁, b, bs₂, rfl, h₁, hab, h₂⟩ := ih h'
    exact ⟨b' :: bs₁, b, bs₂, rfl, .cons hab' h₁, hab, h₂⟩

theorem comp {S : β → γ → Prop} {T : α → γ → Prop} (h : ∀ a b c, R a b → S b c → T a c) :
    ∀ {as : List α} {bs : List β} {cs : List γ},
      List.Forall₂ R as bs → List.Forall₂ S bs cs → List.Forall₂ T as cs
  | _, _, _, .nil, .nil => .nil
  | _, _, _, .cons hab habs, .cons hbc hbcs => .cons (h _ _ _ hab hbc) (comp h habs hbcs)

end ListRel

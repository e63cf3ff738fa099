import Kryos.Lib.Bytes

/-!
# Codes whose words can be split off

A code is prefix-free on the values with `P` if the word of such a value can be split off the front
of a longer text in one way only. Words of one length have this property, and so have texts behind
their own length; it passes to pairs, and a sequence of words is read in one way.
-/

namespace PrefixFree

variable {α β γ : Type*}

/-- The code is prefix-free on the values with `P`. -/
def PrefixFreeOn (P : α → Prop) (code : α → List γ) : Prop :=
  ∀ a b, P a → P b → ∀ s t, code a ++ s = code b ++ t → a = b ∧ s = t

theorem of_length_eq {P : α → Prop} {code : α → List γ} {n : ℕ} (hlen : ∀ a, (code a).length = n)
    (hinj : ∀ a b, P a → P b → code a = code b → a = b) : PrefixFreeOn P code := by
  intro a b ha hb s t h
  obtain ⟨hcode, hst⟩ := List.append_inj h ((hlen a).trans (hlen b).symm)
  exact ⟨hinj a b ha hb hcode, hst⟩

/-- A text behind its length. -/
theorem lengthPrefixed {P : ℕ → Prop} {code : ℕ → List γ} (h : PrefixFreeOn P code) :
    PrefixFreeOn (fun l : List γ => P l.length) fun l => code l.length ++ l := by
  intro a b ha hb s t heq
  rw [List.append_assoc, List.append_assoc] at heq
  obtain ⟨hlen, hrest⟩ := h _ _ ha hb _ _ heq
  exact List.append_inj hrest hlen

theorem prod {P : α → Prop} {Q : β → Prop} {f : α → List γ} {g : β → List γ}
    (hf : PrefixFreeOn P f) (hg : PrefixFreeOn Q g) :
    PrefixFreeOn (fun p : α × β => P p.1 ∧ Q p.2) fun p => f p.1 ++ g p.2 := by
  intro p q hp hq s t heq
  rw [List.append_assoc, List.append_assoc] at heq
  obtain ⟨h₁, hrest⟩ := hf _ _ hp.1 hq.1 _ _ heq
  obtain ⟨h₂, hst⟩ := hg _ _ hp.2 hq.2 _ _ hrest
  exact ⟨Prod.ext h₁ h₂, hst⟩

/-- A sequence of words is read in one way. -/
theorem flatMap_inj {P : α → Prop} {code : α → List γ} (h : PrefixFreeOn P code)
    (hne : ∀ a, code a ≠ []) :
    ∀ {l l' : List α}, (∀ a ∈ l, P a) → (∀ a ∈ l', P a) → l.flatMap code = l'.flatMap code → l = l'
  | [], [], _, _, _ => rfl
  | [], b :: l', _, _, heq => by
    rw [List.flatMap_nil, List.flatMap_cons] at heq
    exact absurd (List.append_eq_nil_iff.mp heq.symm).1 (hne b)
  | a :: l, [], _, _, heq => by
    rw [List.flatMap_nil, List.flatMap_cons] at heq
    exact absurd (List.append_eq_nil_iff.mp heq).1 (hne a)
  | a :: l, b :: l', hl, hl', heq => by
    rw [List.flatMap_cons, List.flatMap_cons] at heq
    obtain ⟨rfl, hrest⟩ := h a b (hl a List.mem_cons_self) (hl' b List.mem_cons_self) _ _ heq
    rw [flatMap_inj h hne (fun c hc => hl c (List.mem_cons_of_mem a hc))
      (fun c hc => hl' c (List.mem_cons_of_mem a hc)) hrest]

/-- Lengths in `n` little-endian bytes. -/
theorem littleEndian (n : ℕ) :
    PrefixFreeOn (fun k => k < 256 ^ n) fun k : ℕ => LittleEndian.encode n k := by
  refine of_length_eq (fun k => LittleEndian.length_encode n k) fun a b ha hb h => ?_
  have hmod := LittleEndian.encode_eq_encode_iff.mp h
  rw [Int.ModEq, Int.emod_eq_of_lt (by omega) (by exact_mod_cast ha),
    Int.emod_eq_of_lt (by omega) (by exact_mod_cast hb)] at hmod
  exact_mod_cast hmod

end PrefixFree

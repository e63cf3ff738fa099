import Mathlib.Data.Finset.Card
import Mathlib.Logic.Relation

/-!
# A worklist that prunes by a key

Items are taken from a stack. An item whose key was met before is dropped; any other is visited,
and what it leads to is pushed. Two items with one key need not lead to the same items, so the
loop follows only the items that happen to come first. `loop_spec` says what can be relied on:
every key that a visited item leads to is the key of a visited item.

The loop takes fuel. When the keys come from a finite set and an item leads to at most `width`
items, enough fuel always ends it (`loop_isSome`).
-/

namespace Worklist

open Relation

variable {α β κ : Type*} [DecidableEq κ] {key : α → κ} {next : α → List α} {visit : β → α → β}

def loop (key : α → κ) (next : α → List α) (visit : β → α → β) :
    ℕ → List α → List κ → β → Option β
  | _, [], _, acc => some acc
  | 0, _ :: _, _, _ => none
  | n + 1, a :: work, seen, acc =>
    if key a ∈ seen then loop key next visit n work seen acc
    else loop key next visit n (next a ++ work) (key a :: seen) (visit acc a)

@[simp] theorem loop_nil (n : ℕ) (seen : List κ) (acc : β) :
    loop key next visit n [] seen acc = some acc := by
  cases n <;> rfl

theorem loop_mono {n m : ℕ} (hnm : n ≤ m) {work : List α} {seen : List κ} {acc out : β}
    (h : loop key next visit n work seen acc = some out) :
    loop key next visit m work seen acc = some out := by
  induction n generalizing m work seen acc with
  | zero =>
    cases work with
    | nil => rwa [loop_nil] at h ⊢
    | cons a work => cases h
  | succ n ih =>
    obtain ⟨m, rfl⟩ : ∃ k, m = k + 1 := ⟨m - 1, by omega⟩
    cases work with
    | nil => rwa [loop_nil] at h ⊢
    | cons a work =>
      rw [loop] at h ⊢
      split at h
      · rename_i hmem
        rw [if_pos hmem]
        exact ih (by omega) h
      · rename_i hmem
        rw [if_neg hmem]
        exact ih (by omega) h

/-- The loop ends. A new key costs one of the finitely many, and pays for what is pushed. -/
theorem loop_isSome {P : α → Prop} {keys : Finset κ} {width : ℕ}
    (hkey : ∀ a, P a → key a ∈ keys) (hwidth : ∀ a, P a → (next a).length ≤ width)
    (hnext : ∀ a, P a → ∀ b ∈ next a, P b) {n : ℕ} {work : List α} {seen : List κ} {acc : β}
    (hwork : ∀ a ∈ work, P a)
    (hn : (keys.filter (· ∉ seen)).card * (width + 1) + work.length ≤ n) :
    ∃ out, loop key next visit n work seen acc = some out := by
  induction n generalizing work seen acc with
  | zero =>
    cases work with
    | nil => exact ⟨acc, rfl⟩
    | cons a work => simp at hn
  | succ n ih =>
    cases work with
    | nil => exact ⟨acc, rfl⟩
    | cons a work =>
      have ha : P a := hwork a List.mem_cons_self
      have htail : ∀ b ∈ work, P b := fun b hb => hwork b (List.mem_cons_of_mem a hb)
      rw [List.length_cons] at hn
      rw [loop]
      split
      · exact ih htail (by omega)
      · rename_i hmem
        have hfewer : (keys.filter (· ∉ key a :: seen)).card < (keys.filter (· ∉ seen)).card := by
          refine Finset.card_lt_card ⟨?_, fun hsub => ?_⟩
          · intro k hk
            simp only [Finset.mem_filter, List.mem_cons, not_or] at hk ⊢
            exact ⟨hk.1, hk.2.2⟩
          · have := hsub (Finset.mem_filter.mpr ⟨hkey a ha, hmem⟩)
            simp at this
        have hpaid : (keys.filter (· ∉ key a :: seen)).card * (width + 1) + (width + 1) ≤
            (keys.filter (· ∉ seen)).card * (width + 1) := by
          rw [← Nat.succ_mul]
          exact Nat.mul_le_mul_right _ hfewer
        refine ih ?_ ?_
        · intro b hb
          exact (List.mem_append.mp hb).elim (hnext a ha b) (htail b)
        · have := hwidth a ha
          rw [List.length_append]
          omega

/-- What the loop visits: the result is that of visiting items reachable from the stack, and every
key that is on the stack or that a visited item leads to has been visited. -/
theorem loop_spec {n : ℕ} {work : List α} {seen : List κ} {acc out : β}
    (h : loop key next visit n work seen acc = some out) :
    ∃ visited : List α, out = visited.foldl visit acc ∧
      (∀ a ∈ visited, ∃ b ∈ work, ReflTransGen (fun a b => b ∈ next a) b a) ∧
      (∀ a ∈ work, key a ∈ seen ∨ ∃ b ∈ visited, key b = key a) ∧
      ∀ a ∈ visited, ∀ b ∈ next a, key b ∈ seen ∨ ∃ c ∈ visited, key c = key b := by
  induction n generalizing work seen acc with
  | zero =>
    cases work with
    | nil =>
      obtain rfl : acc = out := Option.some.inj h
      exact ⟨[], rfl, by simp, by simp, by simp⟩
    | cons a work => cases h
  | succ n ih =>
    cases work with
    | nil =>
      obtain rfl : acc = out := Option.some.inj h
      exact ⟨[], rfl, by simp, by simp, by simp⟩
    | cons a work =>
      rw [loop] at h
      split at h
      · rename_i hmem
        obtain ⟨visited, hout, hreach, hwork, hnext⟩ := ih h
        refine ⟨visited, hout, fun b hb => ?_, fun b hb => ?_, hnext⟩
        · obtain ⟨c, hc, hcb⟩ := hreach b hb
          exact ⟨c, List.mem_cons_of_mem a hc, hcb⟩
        · rcases List.mem_cons.mp hb with rfl | hb
          · exact .inl hmem
          · exact hwork b hb
      · obtain ⟨visited, hout, hreach, hwork, hnext⟩ := ih h
        -- The key of `a` counts as seen for the rest, and `a` itself is the item visited for it.
        have hcover : ∀ k, (k ∈ key a :: seen ∨ ∃ c ∈ visited, key c = k) →
            k ∈ seen ∨ ∃ c ∈ a :: visited, key c = k := by
          rintro k (hk | ⟨c, hc, hck⟩)
          · rcases List.mem_cons.mp hk with rfl | hk
            · exact .inr ⟨a, List.mem_cons_self, rfl⟩
            · exact .inl hk
          · exact .inr ⟨c, List.mem_cons_of_mem a hc, hck⟩
        refine ⟨a :: visited, hout, fun b hb => ?_, fun b hb => ?_, fun b hb c hc => ?_⟩
        · rcases List.mem_cons.mp hb with rfl | hb
          · exact ⟨b, List.mem_cons_self, .refl⟩
          · obtain ⟨c, hc, hcb⟩ := hreach b hb
            rcases List.mem_append.mp hc with hc | hc
            · exact ⟨a, List.mem_cons_self, .head hc hcb⟩
            · exact ⟨c, List.mem_cons_of_mem a hc, hcb⟩
        · rcases List.mem_cons.mp hb with rfl | hb
          · exact .inr ⟨b, List.mem_cons_self, rfl⟩
          · exact hcover _ (hwork b (List.mem_append_right _ hb))
        · rcases List.mem_cons.mp hb with rfl | hb
          · exact hcover _ (hwork c (List.mem_append_left _ hc))
          · exact hcover _ (hnext b hb c hc)

end Worklist

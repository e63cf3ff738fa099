import Mathlib.Data.List.DropRight

/-!
# Trimming texts

Texts as lists of characters, without the whitespace around them. Nothing here is specific to one
program.

## Main results

* `Text.trim_pad` — trimming takes off exactly the whitespace around a text
-/

namespace Text

/-- The `White_Space` property of Unicode. -/
def isWhitespace (c : Char) : Bool :=
  c.toNat ∈ [0x20, 0x85, 0xA0, 0x1680, 0x2028, 0x2029, 0x202F, 0x205F, 0x3000] ||
    (9 ≤ c.toNat && c.toNat ≤ 13) || (0x2000 ≤ c.toNat && c.toNat ≤ 0x200A)

def trimStart (l : List Char) : List Char := l.dropWhile isWhitespace

def trim (l : List Char) : List Char := (trimStart l).rdropWhile isWhitespace

/-- Nothing but whitespace. -/
def Blank (l : List Char) : Prop := ∀ c ∈ l, isWhitespace c = true

/-- The text begins and ends with something else than whitespace. -/
structure Bare (l : List Char) : Prop where
  ne_nil : l ≠ []
  head : isWhitespace (l.head ne_nil) = false
  last : isWhitespace (l.getLast ne_nil) = false

variable {l a b : List Char}

theorem trimStart_append (ha : Blank a) (l : List Char) : trimStart (a ++ l) = trimStart l :=
  List.dropWhile_append_of_pos ha

theorem trimStart_cons {c : Char} (hc : isWhitespace c = false) (l : List Char) :
    trimStart (c :: l) = c :: l :=
  List.dropWhile_cons_of_neg (by simp [hc])

theorem rdropWhile_append (hb : Blank b) (l : List Char) :
    (l ++ b).rdropWhile isWhitespace = l.rdropWhile isWhitespace := by
  rw [List.rdropWhile, List.rdropWhile, List.reverse_append,
    List.dropWhile_append_of_pos fun c hc => hb c (List.mem_reverse.mp hc)]

theorem trim_pad (ha : Blank a) (hl : Bare l) (hb : Blank b) : trim (a ++ (l ++ b)) = l := by
  obtain ⟨hne, hhead, hlast⟩ := hl
  obtain ⟨c, l, rfl⟩ := List.exists_cons_of_ne_nil hne
  rw [List.head_cons] at hhead
  rw [trim, trimStart_append ha, List.cons_append, trimStart_cons hhead, ← List.cons_append,
    rdropWhile_append hb, List.rdropWhile_eq_self_iff]
  exact fun _ => by simp [hlast]

theorem trim_of_bare (hl : Bare l) : trim l = l := by
  have h := trim_pad (a := []) (b := []) (fun _ h => absurd h List.not_mem_nil) hl
    (fun _ h => absurd h List.not_mem_nil)
  rwa [List.nil_append, List.append_nil] at h

theorem trim_of_blank (h : Blank l) : trim l = [] := by
  rw [trim, trimStart, List.dropWhile_eq_nil_iff.mpr h]
  rfl

/-- Whatever is left of a text is bare. -/
theorem trim_cases (l : List Char) : trim l = [] ∨ Bare (trim l) := by
  refine or_iff_not_imp_left.mpr fun hne => ⟨hne, ?_, ?_⟩
  · have hpre : trim l <+: trimStart l := List.rdropWhile_prefix _ _
    rw [hpre.head hne]
    exact List.head_dropWhile_not _ _
  · exact Bool.eq_false_iff.mpr (List.rdropWhile_last_not _ _ hne)

theorem length_trim_le (l : List Char) : (trim l).length ≤ l.length :=
  (List.rdropWhile_prefix _ _).length_le.trans (List.dropWhile_suffix _).length_le

end Text

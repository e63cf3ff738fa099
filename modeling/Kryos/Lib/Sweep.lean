import Mathlib
import Kryos.Lib.VariantLoop

/-!
# Sweeps to a fixpoint

A table keeps a finite set for a key. A list of rules says what has to be in the entry of a key,
given the table. A sweep goes through the rules in order and adds to the entries what is missing;
sweeps are made until one adds nothing. A rule may be any function of the table.

## Main results

* `solve_spec` — the sweeps end, in a table that is closed under the rules and holds nothing that
  the rules do not ask for
-/

namespace Sweep

open VariantLoop

variable {κ α : Type*}

abbrev Table (κ α : Type*) := κ → Option (Finset α)

/-- The entry of a key. A missing entry is empty. -/
def Table.entry (m : Table κ α) (k : κ) : Finset α := (m k).getD ∅

structure Rule (κ α : Type*) where
  key : κ
  value : Table κ α → Finset α

/-! ## What is missing -/

section Missing

variable [Fintype α]

/-- What can still be added to the entries of the rules' keys. -/
def missing (keys : List κ) (m : Table κ α) : ℕ :=
  (keys.map fun k => Fintype.card α - (m.entry k).card).sum

theorem missing_le (keys : List κ) (m : Table κ α) :
    missing keys m ≤ keys.length * Fintype.card α := by
  have hle := List.sum_le_card_nsmul (keys.map fun k => Fintype.card α - (m.entry k).card)
    (Fintype.card α) (by
      intro n hn
      obtain ⟨k, -, rfl⟩ := List.mem_map.mp hn
      exact Nat.sub_le _ _)
  rw [List.length_map] at hle
  exact hle

theorem missing_mono (keys : List κ) {m m' : Table κ α} (h : ∀ k, m.entry k ⊆ m'.entry k) :
    missing keys m' ≤ missing keys m :=
  List.sum_le_sum fun k _ => Nat.sub_le_sub_left (Finset.card_le_card (h k)) _

theorem missing_lt {keys : List κ} {m m' : Table κ α} (h : ∀ k, m.entry k ⊆ m'.entry k) {k : κ}
    (hk : k ∈ keys) (hlt : m.entry k ⊂ m'.entry k) : missing keys m' < missing keys m := by
  refine List.sum_lt_sum _ _
    (fun k _ => Nat.sub_le_sub_left (Finset.card_le_card (h k)) _) ⟨k, hk, ?_⟩
  have hcard := Finset.card_lt_card hlt
  have huniv := Finset.card_le_univ (m'.entry k)
  omega

end Missing

/-! ## One rule -/

variable [DecidableEq κ]

theorem entry_update (m : Table κ α) (k : κ) (s : Finset α) (k' : κ) :
    Table.entry (Function.update m k (some s)) k' = if k' = k then s else m.entry k' := by
  by_cases h : k' = k
  · rw [if_pos h, Table.entry, h, Function.update_self, Option.getD_some]
  · rw [if_neg h, Table.entry, Function.update_of_ne h, Table.entry]

variable [DecidableEq α]

/-- Adds what the rule asks for. The flag says whether anything has been added. -/
def apply (t : Table κ α × Bool) (rule : Rule κ α) : Table κ α × Bool :=
  let merged := t.1.entry rule.key ∪ rule.value t.1
  if merged.card ≠ (t.1.entry rule.key).card then
    (Function.update t.1 rule.key (some merged), true)
  else t

/-- A sweep. -/
def sweep (rules : List (Rule κ α)) (m : Table κ α) : Table κ α × Bool :=
  rules.foldl apply (m, false)

def step (rules : List (Rule κ α)) (m : Table κ α) : Option (Table κ α ⊕ Table κ α) :=
  let swept := sweep rules m
  some (if swept.2 then .inl swept.1 else .inr swept.1)

/-- Sweeps until nothing is added. -/
def solve [Fintype α] (rules : List (Rule κ α)) (m : Table κ α) : Option (Table κ α) :=
  iterate (step rules) (rules.length * Fintype.card α + 1) m

/-- A rule adds nothing where it holds. -/
theorem apply_cases (t : Table κ α × Bool) (rule : Rule κ α) :
    (rule.value t.1 ⊆ t.1.entry rule.key ∧ apply t rule = t) ∨
    (¬rule.value t.1 ⊆ t.1.entry rule.key ∧ apply t rule =
      (Function.update t.1 rule.key (some (t.1.entry rule.key ∪ rule.value t.1)), true)) := by
  have hsub : t.1.entry rule.key ⊆ t.1.entry rule.key ∪ rule.value t.1 :=
    Finset.subset_union_left
  by_cases h : (t.1.entry rule.key ∪ rule.value t.1).card = (t.1.entry rule.key).card
  · have heq := Finset.eq_of_subset_of_card_le hsub h.le
    exact .inl ⟨Finset.union_eq_left.mp heq.symm, if_neg (not_not_intro h)⟩
  · refine .inr ⟨fun hle => h ?_, if_pos h⟩
    rw [Finset.union_eq_left.mpr hle]

theorem subset_apply (t : Table κ α × Bool) (rule : Rule κ α) (k : κ) :
    t.1.entry k ⊆ (apply t rule).1.entry k := by
  rcases apply_cases t rule with ⟨-, heq⟩ | ⟨-, heq⟩
  · rw [heq]
  · rw [heq, entry_update]
    split
    · rename_i hk
      rw [hk]
      exact Finset.subset_union_left
    · exact Finset.Subset.refl _

theorem subset_foldl (rules : List (Rule κ α)) (t : Table κ α × Bool) (k : κ) :
    t.1.entry k ⊆ (rules.foldl apply t).1.entry k := by
  induction rules generalizing t with
  | nil => exact Finset.Subset.refl _
  | cons rule rules ih => exact (subset_apply t rule k).trans (ih (apply t rule))

/-- A sweep that adds nothing leaves the table, and every rule holds in it. -/
theorem foldl_unchanged (rules : List (Rule κ α)) (t : Table κ α × Bool)
    (h : (rules.foldl apply t).2 = false) : rules.foldl apply t = t ∧
      ∀ rule ∈ rules, rule.value t.1 ⊆ t.1.entry rule.key := by
  induction rules generalizing t with
  | nil => exact ⟨rfl, fun _ h => absurd h List.not_mem_nil⟩
  | cons rule rules ih =>
    obtain ⟨heq, hrest⟩ := ih (apply t rule) h
    rcases apply_cases t rule with ⟨hsub, happly⟩ | ⟨-, happly⟩
    · rw [happly] at heq hrest
      exact ⟨by rw [List.foldl_cons, happly, heq], List.forall_mem_cons.mpr ⟨hsub, hrest⟩⟩
    · have hflag : (rules.foldl apply (apply t rule)).2 = true := by rw [heq, happly]
      rw [List.foldl_cons, hflag] at h
      cases h

/-! ## What a sweep adds -/

theorem missing_apply [Fintype α] {keys : List κ} (t : Table κ α × Bool) {rule : Rule κ α}
    (hkey : rule.key ∈ keys) :
    apply t rule = t ∨ missing keys (apply t rule).1 < missing keys t.1 := by
  rcases apply_cases t rule with ⟨-, heq⟩ | ⟨hnot, heq⟩
  · exact .inl heq
  · refine .inr (missing_lt (subset_apply t rule) hkey ?_)
    refine (subset_apply t rule rule.key).ssubset_of_not_subset fun hle => hnot ?_
    rw [heq, entry_update, if_pos rfl] at hle
    exact Finset.subset_union_right.trans hle

/-- A sweep that adds something leaves less that can be added. -/
theorem missing_foldl [Fintype α] {keys : List κ} (rules : List (Rule κ α)) (t : Table κ α × Bool)
    (hkeys : ∀ rule ∈ rules, rule.key ∈ keys) :
    rules.foldl apply t = t ∨ missing keys (rules.foldl apply t).1 < missing keys t.1 := by
  induction rules generalizing t with
  | nil => exact .inl rfl
  | cons rule rules ih =>
    obtain ⟨hkey, hkeys⟩ := List.forall_mem_cons.mp hkeys
    rw [List.foldl_cons]
    rcases missing_apply t hkey with heq | hlt
    · rw [heq]
      exact ih t hkeys
    · exact .inr ((missing_mono keys (subset_foldl rules _)).trans_lt hlt)

/-! ## The fixpoint -/

/-- Nothing is in the table but what `P` says of its key. -/
def Sound (P : κ → α → Prop) (m : Table κ α) : Prop := ∀ k, ∀ a ∈ m.entry k, P k a

/-- The rules ask only for what `P` says, if the table holds nothing else. -/
def Closed (P : κ → α → Prop) (rules : List (Rule κ α)) : Prop :=
  ∀ rule ∈ rules, ∀ m, Sound P m → ∀ a ∈ rule.value m, P rule.key a

theorem sound_apply {P : κ → α → Prop} {t : Table κ α × Bool} {rule : Rule κ α}
    (hrule : ∀ m, Sound P m → ∀ a ∈ rule.value m, P rule.key a) (ht : Sound P t.1) :
    Sound P (apply t rule).1 := by
  rcases apply_cases t rule with ⟨-, heq⟩ | ⟨-, heq⟩
  · rwa [heq]
  · intro k a ha
    rw [heq, entry_update] at ha
    split at ha
    · rename_i hk
      subst hk
      exact (Finset.mem_union.mp ha).elim (ht _ a) (hrule _ ht a)
    · exact ht k a ha

theorem sound_foldl {P : κ → α → Prop} {rules : List (Rule κ α)} (hrules : Closed P rules)
    {t : Table κ α × Bool} (ht : Sound P t.1) : Sound P (rules.foldl apply t).1 := by
  induction rules generalizing t with
  | nil => exact ht
  | cons rule rules ih =>
    obtain ⟨hrule, hrest⟩ := List.forall_mem_cons.mp hrules
    exact ih hrest (sound_apply hrule ht)

/-- What the sweeps leave of a table. -/
structure Solves (rules : List (Rule κ α)) (m m' : Table κ α) : Prop where
  grows : ∀ k, m.entry k ⊆ m'.entry k
  holds : ∀ rule ∈ rules, rule.value m' ⊆ m'.entry rule.key
  least : ∀ P : κ → α → Prop, Closed P rules → Sound P m → Sound P m'

/-- The sweeps end. -/
theorem solve_spec [Fintype α] (rules : List (Rule κ α)) (m : Table κ α) :
    ∃ m', solve rules m = some m' ∧ Solves rules m m' := by
  let keys := rules.map Rule.key
  have hkeys : ∀ rule ∈ rules, rule.key ∈ keys := fun _ h => List.mem_map_of_mem h
  refine iterate_spec (I := fun t => (∀ k, m.entry k ⊆ t.entry k) ∧
    ∀ P : κ → α → Prop, Closed P rules → Sound P m → Sound P t) (missing keys) ?_
    ⟨fun _ => Finset.Subset.refl _, fun _ _ h => h⟩ ?_
  · rintro t ⟨hgrows, hleast⟩
    have hgrows' : ∀ k, m.entry k ⊆ (sweep rules t).1.entry k := fun k =>
      (hgrows k).trans (subset_foldl rules (t, false) k)
    have hleast' : ∀ P : κ → α → Prop, Closed P rules → Sound P m → Sound P (sweep rules t).1 :=
      fun P hP hm => sound_foldl hP (hleast P hP hm)
    cases hflag : (sweep rules t).2 with
    | true =>
      refine .inl ⟨(sweep rules t).1, ?_, ⟨hgrows', hleast'⟩, ?_⟩
      · rw [step, hflag, if_pos rfl]
      · refine (missing_foldl rules (t, false) hkeys).resolve_left fun heq => ?_
        rw [sweep, heq] at hflag
        cases hflag
    | false =>
      obtain ⟨heq, hholds⟩ := foldl_unchanged rules (t, false) hflag
      have htable : (sweep rules t).1 = t := congrArg Prod.fst heq
      refine .inr ⟨t, ?_, hgrows, hholds, hleast⟩
      rw [step, hflag, if_neg Bool.false_ne_true, htable]
  · have hle := missing_le keys m
    rw [List.length_map] at hle
    exact Nat.lt_succ_of_le hle

end Sweep

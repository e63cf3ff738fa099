import Mathlib.Data.List.Nodup
import Mathlib.Logic.Function.Basic

/-!
# Tables of results

A pass visits nodes one after the other, and records what it finds out about a node under a key of
the node. A later pass looks the result up by the key. Every node gets its own result back, whatever
the results are, exactly if no two nodes have the same key.
-/

namespace KeyedTable

variable {κ : Type*} [DecidableEq κ] {α : Type}

/-- The table after these visits. A visit need not record anything; a result replaces an earlier one
of the same key. -/
def record (table : κ → Option α) : List (κ × Option α) → κ → Option α
  | [] => table
  | (_, none) :: visits => record table visits
  | (key, some result) :: visits => record (Function.update table key (some result)) visits

/-- Every lookup returns what was recorded for that very node. -/
def OwnResults (keys : List κ) : Prop :=
  ∀ (α : Type) (visits : List (κ × Option α)), visits.map Prod.fst = keys →
    ∀ visit ∈ visits, record (fun _ => none) visits visit.1 = visit.2

theorem record_of_not_mem {visits : List (κ × Option α)} {key : κ}
    (h : key ∉ visits.map Prod.fst) (table : κ → Option α) :
    record table visits key = table key := by
  induction visits generalizing table with
  | nil => rfl
  | cons visit visits ih =>
    obtain ⟨hne, hrest⟩ := not_or.mp (mt List.mem_cons.mpr h)
    obtain ⟨k, _ | result⟩ := visit
    · exact ih hrest table
    · rw [record, ih hrest, Function.update_of_ne hne]

theorem record_of_nodup {visits : List (κ × Option α)} (h : (visits.map Prod.fst).Nodup)
    (table : κ → Option α) {visit : κ × Option α} (hvisit : visit ∈ visits)
    (hnew : table visit.1 = none) : record table visits visit.1 = visit.2 := by
  induction visits generalizing table with
  | nil => cases hvisit
  | cons first visits ih =>
    obtain ⟨hfirst, hrest⟩ := List.nodup_cons.mp h
    obtain rfl | hlater := List.mem_cons.mp hvisit
    · obtain ⟨k, _ | result⟩ := visit
      · exact (record_of_not_mem hfirst table).trans hnew
      · rw [record, record_of_not_mem hfirst, Function.update_self]
    · have hne : visit.1 ≠ first.1 := fun heq => hfirst (heq ▸ List.mem_map_of_mem hlater)
      obtain ⟨k, _ | result⟩ := first
      · exact ih hrest table hlater hnew
      · exact ih hrest _ hlater ((Function.update_of_ne hne _ _).trans hnew)

theorem ownResults_iff {keys : List κ} : OwnResults keys ↔ keys.Nodup := by
  constructor
  · intro h
    -- number the visits
    let visits := keys.zipIdx.map fun p => (p.1, some p.2)
    have hkeys : visits.map Prod.fst = keys := by
      show (keys.zipIdx.map _).map Prod.fst = keys
      rw [List.map_map]
      exact List.zipIdx_map_fst 0 keys
    have hmem : ∀ i (hi : i < keys.length), (keys[i], some i) ∈ visits := by
      intro i hi
      refine List.mem_map.mpr ⟨(keys[i], i), ?_, rfl⟩
      exact List.mk_mem_zipIdx_iff_getElem?.mpr (List.getElem?_eq_getElem hi)
    refine List.nodup_iff_injective_getElem.mpr fun i j hij => ?_
    have hi := h ℕ visits hkeys _ (hmem i i.2)
    have hj := h ℕ visits hkeys _ (hmem j j.2)
    have heq : keys[(i : ℕ)] = keys[(j : ℕ)] := hij
    rw [heq] at hi
    exact Fin.ext (Option.some.inj (hi.symm.trans hj))
  · rintro h α visits rfl visit hvisit
    exact record_of_nodup h _ hvisit rfl

/-! ### Keys of several sources -/

section Sources

variable {β γ ι : Type*} [DecidableEq ι]

/-- A symmetric relation between elements of a list, checked within each source and across. -/
theorem pairwise_iff_sources {R : β → β → Prop} (hsymm : ∀ {x y}, R x y → R y x) (source : β → ι)
    {l : List β} : l.Pairwise R ↔ (∀ i, (l.filter fun x => source x = i).Pairwise R) ∧
      ∀ x ∈ l, ∀ y ∈ l, source x ≠ source y → R x y := by
  induction l with
  | nil => exact ⟨fun _ => ⟨fun _ => .nil, nofun⟩, fun _ => .nil⟩
  | cons a l ih =>
    rw [List.pairwise_cons, ih]
    constructor
    · rintro ⟨ha, hwithin, hacross⟩
      refine ⟨fun i => ?_, ?_⟩
      · rw [List.filter_cons]
        split
        · exact .cons (fun x hx => ha x (List.mem_of_mem_filter hx)) (hwithin i)
        · exact hwithin i
      · intro x hx y hy hne
        obtain rfl | hxl := List.mem_cons.mp hx
        · obtain rfl | hyl := List.mem_cons.mp hy
          · exact absurd rfl hne
          · exact ha y hyl
        · obtain rfl | hyl := List.mem_cons.mp hy
          · exact hsymm (ha x hxl)
          · exact hacross x hxl y hyl hne
    · rintro ⟨hwithin, hacross⟩
      refine ⟨fun x hx => ?_, fun i => ?_, fun x hx y hy => ?_⟩
      · by_cases hsame : source a = source x
        · have hgroup := hwithin (source a)
          rw [List.filter_cons_of_pos (by simp)] at hgroup
          exact (List.pairwise_cons.mp hgroup).1 x (List.mem_filter.mpr ⟨hx, by simp [hsame]⟩)
        · exact hacross a List.mem_cons_self x (List.mem_cons_of_mem a hx) hsame
      · refine (hwithin i).sublist ?_
        exact (List.sublist_cons_self a l).filter _
      · exact hacross x (List.mem_cons_of_mem a hx) y (List.mem_cons_of_mem a hy)

/-- No key twice: within each source, and in two sources. -/
theorem nodup_flatMap_iff_sources (source : β → ι) {keys : β → List γ} {l : List β} :
    (l.flatMap keys).Nodup ↔ (∀ i, ((l.filter fun x => source x = i).flatMap keys).Nodup) ∧
      ∀ x ∈ l, ∀ y ∈ l, source x ≠ source y → (keys x).Disjoint (keys y) := by
  have hsymm : ∀ {x y}, Function.onFun List.Disjoint keys x y →
      Function.onFun List.Disjoint keys y x := fun h _ hy hx => h hx hy
  simp only [List.nodup_flatMap, forall_and]
  rw [pairwise_iff_sources hsymm source, ← and_assoc]
  refine and_congr_left fun _ => and_congr_left fun _ => ?_
  constructor
  · exact fun h i x hx => h x (List.mem_of_mem_filter hx)
  · exact fun h x hx => h (source x) x (List.mem_filter.mpr ⟨hx, by simp⟩)

end Sources

/-! ### Owners -/

section Owners

variable {β γ δ : Type*} {items : β → List γ} {key : γ → δ} {l : List β}

theorem eq_nil_of_split_eq {before x after after' : List β} {b b' : β} {c c' : γ}
    (h : ((l.flatMap items).map key).Nodup) (hsplit : l = before ++ b :: after)
    (hsplit' : l = (before ++ x) ++ b' :: after') (hc : c ∈ items b) (hc' : c' ∈ items b')
    (hkey : key c = key c') : x = [] := by
  cases x with
  | nil => rfl
  | cons y x =>
    rw [hsplit'] at hsplit h
    rw [List.append_assoc, List.append_cancel_left_eq, List.cons_append, List.cons.injEq] at hsplit
    obtain ⟨rfl, -⟩ := hsplit
    rw [List.flatMap_append, List.flatMap_append, List.map_append, List.map_append,
      List.nodup_append] at h
    refine absurd hkey (h.2.2 _ ?_ _ ?_)
    · refine List.mem_append_right _ (List.mem_map_of_mem ?_)
      exact List.mem_flatMap.mpr ⟨_, List.mem_cons_self, hc⟩
    · exact List.mem_map_of_mem (List.mem_flatMap.mpr ⟨_, List.mem_cons_self, hc'⟩)

/-- Where no key comes twice, an item has one owner, at one place of the list. -/
theorem owner_unique {before before' after after' : List β} {b b' : β} {c c' : γ}
    (h : ((l.flatMap items).map key).Nodup) (hsplit : l = before ++ b :: after)
    (hsplit' : l = before' ++ b' :: after') (hc : c ∈ items b) (hc' : c' ∈ items b')
    (hkey : key c = key c') : before = before' ∧ b = b' ∧ c = c' := by
  have hbefore : before = before' := by
    rcases List.append_eq_append_iff.mp (hsplit.symm.trans hsplit') with
      ⟨x, hx, -⟩ | ⟨x, hx, -⟩
    · have hnil : x = [] := eq_nil_of_split_eq h hsplit (hx ▸ hsplit') hc hc' hkey
      rw [hx, hnil, List.append_nil]
    · have hnil : x = [] := eq_nil_of_split_eq h hsplit' (hx ▸ hsplit) hc' hc hkey.symm
      rw [hx, hnil, List.append_nil]
  have hitem : b = b' := by
    rw [hsplit, hbefore, List.append_cancel_left_eq, List.cons.injEq] at hsplit'
    exact hsplit'.1
  refine ⟨hbefore, hitem, List.inj_on_of_nodup_map h ?_ ?_ hkey⟩
  · exact List.mem_flatMap.mpr ⟨b, by rw [hsplit]; simp, hc⟩
  · exact List.mem_flatMap.mpr ⟨b', by rw [hsplit']; simp, hc'⟩

end Owners

end KeyedTable

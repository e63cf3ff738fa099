import Mathlib.Order.WithBot
import Mathlib.Data.Finset.Lattice.Fold
import Kryos.Capabilities.Model

/-!
# Capability rows

The row in a function type says which authority a call of the function can use: some concrete
capabilities, and some row variables that later bindings fill in. A row can also be `unknown`,
when the callee cannot be identified; that is not the empty row but the one above all others.

Rows are ordered by containment, and `union` is the join of that order.
-/

namespace Kryos.Types

open Kryos.Capabilities

/-- The bit set of the source, one bit a capability. -/
abbrev CapBits := Finset Capability

abbrev CapVarId := Nat

/-- The capabilities of a `deny!` list that the authority `used` includes. A name that is no
capability denies nothing. -/
def deniedCapsUsed (denied : List String) (used : CapBits) : List String :=
  denied.filter fun d =>
    match Capability.fromStr d with
    | none => false
    | some dcap => CapabilitySet.satisfiesRequired used dcap

/-- The source keeps the variables sorted and without repetition, so a row is determined by the
set of them. -/
inductive CapRow where
  | resolved (concrete : CapBits) (vars : Finset CapVarId)
  | unknown

namespace CapRow

-- Not derived: the comparison of the sets must not be carried out on the types of a cast.
instance : DecidableEq CapRow
  | .resolved c vs, .resolved c' vs' => decidable_of_iff (c = c' ∧ vs = vs') (by simp)
  | .resolved _ _, .unknown => isFalse nofun
  | .unknown, .resolved _ _ => isFalse nofun
  | .unknown, .unknown => isTrue rfl

def closed (bits : CapBits) : CapRow := .resolved bits ∅

def empty : CapRow := .closed ∅

def var (v : CapVarId) : CapRow := .resolved ∅ {v}

def isClosed : CapRow → Bool
  | .resolved _ vars => vars = ∅
  | .unknown => false

/-- The one place where a row is erased to bits, and an unknown row becomes `all`. -/
def concreteBits : CapRow → CapBits
  | .resolved concrete _ => concrete
  | .unknown => {.all}

def varIds : CapRow → Finset CapVarId
  | .resolved _ vars => vars
  | .unknown => ∅

def union : CapRow → CapRow → CapRow
  | .unknown, _ | _, .unknown => .unknown
  | .resolved c vs, .resolved c' vs' => .resolved (c ∪ c') (vs ∪ vs')

def unionBits : CapRow → CapBits → CapRow
  | .unknown, _ => .unknown
  | .resolved c vs, bits => .resolved (c ∪ bits) vs

/-- The row as a pair of sets, with the unknown row on top. -/
def toSets : CapRow → WithTop (CapBits × Finset CapVarId)
  | .resolved c vs => ((c, vs) : CapBits × Finset CapVarId)
  | .unknown => ⊤

theorem toSets_injective : Function.Injective toSets := by
  intro r r' h
  cases r <;> cases r' <;> simp_all [toSets]

instance : Max CapRow := ⟨union⟩

instance : LE CapRow := ⟨fun r r' => r.toSets ≤ r'.toSets⟩

instance : LT CapRow := ⟨fun r r' => r.toSets < r'.toSets⟩

instance : SemilatticeSup CapRow :=
  toSets_injective.semilatticeSup toSets Iff.rfl Iff.rfl <| by
    intro r r'
    cases r <;> cases r' <;> rfl

instance : OrderBot CapRow where
  bot := empty
  bot_le r := by
    cases r with
    | resolved c vs => exact WithTop.coe_le_coe.mpr ⟨Finset.empty_subset c, Finset.empty_subset vs⟩
    | unknown => exact (le_top : empty.toSets ≤ ⊤)

theorem resolved_le_resolved {c c' : CapBits} {vs vs' : Finset CapVarId} :
    resolved c vs ≤ resolved c' vs' ↔ c ⊆ c' ∧ vs ⊆ vs' :=
  WithTop.coe_le_coe

theorem le_unknown (r : CapRow) : r ≤ unknown :=
  (le_top : r.toSets ≤ ⊤)

theorem not_unknown_le {c : CapBits} {vs : Finset CapVarId} : ¬ unknown ≤ resolved c vs :=
  WithTop.not_top_le_coe _

theorem sup_eq_union (r r' : CapRow) : r ⊔ r' = r.union r' := rfl

theorem bot_eq_empty : (⊥ : CapRow) = empty := rfl

theorem unionBits_eq (r : CapRow) (bits : CapBits) : r.unionBits bits = r ⊔ closed bits := by
  cases r with
  | resolved c vs => rw [sup_eq_union, closed, union, unionBits, Finset.union_empty]
  | unknown => rfl

instance decidableLE : DecidableLE CapRow
  | .resolved _ _, .resolved _ _ => decidable_of_iff _ resolved_le_resolved.symm
  | r, .unknown => isTrue (le_unknown r)
  | .unknown, .resolved _ _ => isFalse not_unknown_le

/-! ### The least parts of a row -/

/-- One capability, one variable, or that the row is unknown. -/
inductive Atom where
  | cap (c : Capability)
  | var (v : CapVarId)
  | unknown

def Atom.row : Atom → CapRow
  | .cap c => .closed {c}
  | .var v => .var v
  | .unknown => .unknown

theorem cap_le_iff {c : Capability} {bits : CapBits} {vs : Finset CapVarId} :
    (Atom.cap c).row ≤ .resolved bits vs ↔ c ∈ bits := by
  rw [Atom.row, closed, resolved_le_resolved, Finset.singleton_subset_iff]
  exact and_iff_left (Finset.empty_subset _)

theorem var_le_iff {v : CapVarId} {bits : CapBits} {vs : Finset CapVarId} :
    (Atom.var v).row ≤ .resolved bits vs ↔ v ∈ vs := by
  rw [Atom.row, CapRow.var, resolved_le_resolved, Finset.singleton_subset_iff]
  exact and_iff_right (Finset.empty_subset _)

theorem unknown_le_iff {r : CapRow} : unknown ≤ r ↔ r = unknown := by
  cases r with
  | resolved bits vs => exact iff_of_false not_unknown_le nofun
  | unknown => exact iff_of_true (le_unknown _) rfl

/-- An atom of a union is an atom of one of the two rows. -/
theorem Atom.row_le_sup {a : Atom} {r r' : CapRow} :
    a.row ≤ r ⊔ r' ↔ a.row ≤ r ∨ a.row ≤ r' := by
  refine ⟨fun h => ?_, fun h => h.elim le_sup_of_le_left le_sup_of_le_right⟩
  cases r with
  | unknown => exact .inl (le_unknown _)
  | resolved bits vs =>
    cases r' with
    | unknown => exact .inr (le_unknown _)
    | resolved bits' vs' =>
      have hsup : resolved bits vs ⊔ resolved bits' vs' = resolved (bits ∪ bits') (vs ∪ vs') := rfl
      rw [hsup] at h
      cases a with
      | cap c =>
        rw [cap_le_iff, Finset.mem_union] at h
        rwa [cap_le_iff, cap_le_iff]
      | var v =>
        rw [var_le_iff, Finset.mem_union] at h
        rwa [var_le_iff, var_le_iff]
      | unknown => exact absurd h not_unknown_le

theorem Atom.not_row_le_bot (a : Atom) : ¬ a.row ≤ (⊥ : CapRow) := by
  rw [bot_eq_empty, empty, closed]
  cases a with
  | cap c =>
    rw [cap_le_iff]
    exact Finset.notMem_empty c
  | var v =>
    rw [var_le_iff]
    exact Finset.notMem_empty v
  | unknown => exact not_unknown_le

theorem Atom.row_le_finsetSup {ι : Type*} {a : Atom} {s : Finset ι} {f : ι → CapRow} :
    a.row ≤ s.sup f ↔ ∃ i ∈ s, a.row ≤ f i := by
  classical
  induction s using Finset.induction_on with
  | empty =>
    rw [Finset.sup_empty]
    exact iff_of_false a.not_row_le_bot fun ⟨i, hi, _⟩ => Finset.notMem_empty i hi
  | insert i s hi ih =>
    rw [Finset.sup_insert, Atom.row_le_sup, ih, Finset.exists_mem_insert]

/-- A row is determined by its atoms. -/
theorem eq_of_atoms {r r' : CapRow} (h : ∀ a : Atom, a.row ≤ r ↔ a.row ≤ r') : r = r' := by
  cases r with
  | unknown => exact (unknown_le_iff.mp ((h .unknown).mp (le_unknown _))).symm
  | resolved bits vs =>
    cases r' with
    | unknown => exact unknown_le_iff.mp ((h .unknown).mpr (le_unknown _))
    | resolved bits' vs' =>
      have hbits : bits = bits' := by
        ext c
        exact cap_le_iff.symm.trans ((h (.cap c)).trans cap_le_iff)
      have hvs : vs = vs' := by
        ext v
        exact var_le_iff.symm.trans ((h (.var v)).trans var_le_iff)
      rw [hbits, hvs]

end CapRow

end Kryos.Types

import Mathlib.Data.List.Forall2
import Kryos.Types.CapRow

/-!
# Types

The types of the checker, as far as inference reads them. Most functions on types do the same in
every compound type: they work on the parts and put the type together again. `children` and
`rebuild` say this once.
-/

namespace Kryos.Types

inductive Prim where
  | i8 | i16 | i32 | i64 | i128
  | u8 | u16 | u32 | u64 | u128
  | f32 | f64
  | bool | char | str
  | usize | isize
  | void
  | never
deriving DecidableEq, Repr

abbrev TyVarId := Nat

inductive Ty where
  | prim (p : Prim)
  | array (element : Ty) (size : Option Nat)
  | tuple (elements : List Ty)
  | map (key value : Ty)
  | set (element : Ty)
  | option (inner : Ty)
  | result (ok err : Ty)
  | struct (name : String) (generics : List Ty)
  | enum (name : String) (generics : List Ty)
  | function (params : List Ty) (ret : Ty) (caps : CapRow)
  | reference (inner : Ty) (mutable : Bool)
  | shared (inner : Ty)
  | weak (inner : Ty)
  | pointer (inner : Ty) (mutable : Bool)
  | dynTrait (traitName : String)
  | var (id : TyVarId)
  | error

namespace Ty

/-! ### Equality -/

mutual

def beq : Ty → Ty → Bool
  | .prim p, .prim p' => p = p'
  | .array t n, .array t' n' => beq t t' && n = n'
  | .tuple ts, .tuple ts' => beqList ts ts'
  | .map k v, .map k' v' => beq k k' && beq v v'
  | .set t, .set t' => beq t t'
  | .option t, .option t' => beq t t'
  | .result t u, .result t' u' => beq t t' && beq u u'
  | .struct s ts, .struct s' ts' => s = s' && beqList ts ts'
  | .enum s ts, .enum s' ts' => s = s' && beqList ts ts'
  | .function ts t c, .function ts' t' c' => beqList ts ts' && beq t t' && c = c'
  | .reference t m, .reference t' m' => beq t t' && m = m'
  | .shared t, .shared t' => beq t t'
  | .weak t, .weak t' => beq t t'
  | .pointer t m, .pointer t' m' => beq t t' && m = m'
  | .dynTrait s, .dynTrait s' => s = s'
  | .var v, .var v' => v = v'
  | .error, .error => true
  | _, _ => false

def beqList : List Ty → List Ty → Bool
  | [], [] => true
  | t :: ts, t' :: ts' => beq t t' && beqList ts ts'
  | _, _ => false

end

mutual

theorem beq_iff : ∀ t t' : Ty, beq t t' = true ↔ t = t'
  | .prim p, t' | .dynTrait s, t' | .var v, t' | .error, t' => by cases t' <;> simp [beq]
  | .array t n, t' | .set t, t' | .option t, t' | .reference t m, t' | .shared t, t' | .weak t, t'
  | .pointer t m, t' => by cases t' <;> simp [beq, beq_iff t]
  | .tuple ts, t' | .struct s ts, t' | .enum s ts, t' => by cases t' <;> simp [beq, beqList_iff ts]
  | .map k v, t' => by cases t' <;> simp [beq, beq_iff k, beq_iff v]
  | .result t u, t' => by cases t' <;> simp [beq, beq_iff t, beq_iff u]
  | .function ts t c, t' => by cases t' <;> simp [beq, beqList_iff ts, beq_iff t, and_assoc]

theorem beqList_iff : ∀ ts ts' : List Ty, beqList ts ts' = true ↔ ts = ts'
  | [], ts' => by cases ts' <;> simp [beqList]
  | t :: ts, ts' => by cases ts' <;> simp [beqList, beq_iff t, beqList_iff ts]

end

instance : DecidableEq Ty := fun t t' => decidable_of_iff _ (beq_iff t t')

/-! ### The parts of a type -/

/-- The parts of a type, in the order in which they are visited. -/
def children : Ty → List Ty
  | .array element _ => [element]
  | .tuple elements => elements
  | .map key value => [key, value]
  | .set element => [element]
  | .option inner => [inner]
  | .result ok err => [ok, err]
  | .struct _ generics => generics
  | .enum _ generics => generics
  | .function params ret _ => params ++ [ret]
  | .reference inner _ => [inner]
  | .shared inner => [inner]
  | .weak inner => [inner]
  | .pointer inner _ => [inner]
  | .prim _ | .dynTrait _ | .var _ | .error => []

/-- The same type with other parts. -/
def rebuild : Ty → List Ty → Ty
  | .array _ size, [element] => .array element size
  | .tuple _, elements => .tuple elements
  | .map _ _, [key, value] => .map key value
  | .set _, [element] => .set element
  | .option _, [inner] => .option inner
  | .result _ _, [ok, err] => .result ok err
  | .struct name _, generics => .struct name generics
  | .enum name _, generics => .enum name generics
  | .function _ ret caps, parts => .function parts.dropLast (parts.getLastD ret) caps
  | .reference _ mutable, [inner] => .reference inner mutable
  | .shared _, [inner] => .shared inner
  | .weak _, [inner] => .weak inner
  | .pointer _ mutable, [inner] => .pointer inner mutable
  | t, _ => t

theorem rebuild_children (t : Ty) : t.rebuild t.children = t := by
  cases t <;> simp [rebuild, children]

variable {t : Ty}

theorem children_rebuild {parts : List Ty} (h : parts.length = t.children.length) :
    (t.rebuild parts).children = parts := by
  cases t with
  | tuple | struct | enum => rfl
  | function params ret caps =>
    have hne : parts ≠ [] := by
      rintro rfl
      simp [children] at h
    simp only [rebuild, children]
    rw [List.getLastD_eq_getLast?, List.getLast?_eq_some_getLast hne, Option.getD_some,
      List.dropLast_concat_getLast hne]
  | map | result =>
    obtain ⟨x, y, rfl⟩ := List.length_eq_two.mp h
    rfl
  | array | set | option | reference | shared | weak | pointer =>
    obtain ⟨x, rfl⟩ := List.length_eq_one_iff.mp h
    rfl
  | prim | dynTrait | var | error =>
    obtain rfl := List.length_eq_zero_iff.mp h
    rfl

theorem rebuild_rebuild {parts parts' : List Ty} (h : parts.length = t.children.length)
    (h' : parts'.length = t.children.length) :
    (t.rebuild parts).rebuild parts' = t.rebuild parts' := by
  cases t with
  | tuple | struct | enum => rfl
  | function params ret caps =>
    have hne : parts' ≠ [] := by
      rintro rfl
      simp [children] at h'
    simp only [rebuild]
    have hlast : ∀ d, parts'.getLastD d = parts'.getLast hne := fun d => by
      rw [List.getLastD_eq_getLast?, List.getLast?_eq_some_getLast hne, Option.getD_some]
    rw [hlast, hlast]
  | map | result =>
    obtain ⟨x, y, rfl⟩ := List.length_eq_two.mp h
    obtain ⟨x', y', rfl⟩ := List.length_eq_two.mp h'
    rfl
  | array | set | option | reference | shared | weak | pointer =>
    obtain ⟨x, rfl⟩ := List.length_eq_one_iff.mp h
    obtain ⟨x', rfl⟩ := List.length_eq_one_iff.mp h'
    rfl
  | prim | dynTrait | var | error => rfl

theorem sizeOf_lt_of_mem_children {c : Ty} (h : c ∈ t.children) : sizeOf c < sizeOf t := by
  cases t with
  | function params ret caps =>
    simp only [children, List.mem_append, List.mem_singleton] at h
    rcases h with h | rfl
    · have := List.sizeOf_lt_of_mem h
      simp only [function.sizeOf_spec]
      omega
    · simp only [function.sizeOf_spec]
      omega
  | tuple ts | struct _ ts | enum _ ts =>
    have hmem : c ∈ ts := h
    have := List.sizeOf_lt_of_mem hmem
    simp
    omega
  | prim | dynTrait | var | error => cases h
  | _ =>
    simp only [children, List.mem_cons, List.not_mem_nil, or_false] at h
    rcases h with rfl | rfl <;> simp <;> omega

/-- Induction over the parts of a type. -/
theorem parts_induction {motive : Ty → Prop}
    (h : ∀ t, (∀ c ∈ t.children, motive c) → motive t) (t : Ty) : motive t := by
  generalize hn : sizeOf t = n
  induction n using Nat.strong_induction_on generalizing t with
  | _ n ih => exact h t fun c hc => ih _ (hn ▸ sizeOf_lt_of_mem_children hc) c rfl

/-- The variable occurs in the type. -/
inductive Occurs (id : TyVarId) : Ty → Prop
  | var : Occurs id (.var id)
  | part {t c : Ty} (hc : c ∈ t.children) (h : Occurs id c) : Occurs id t

theorem occurs_var_iff {id id' : TyVarId} : Occurs id (.var id') ↔ id' = id := by
  constructor
  · intro h
    cases h with
    | var => rfl
    | part hc => cases hc
  · rintro rfl
    exact .var

theorem occurs_iff {id : TyVarId} (ht : ∀ v, t ≠ .var v) :
    Occurs id t ↔ ∃ c ∈ t.children, Occurs id c := by
  constructor
  · intro h
    cases h with
    | var => exact absurd rfl (ht id)
    | part hc h => exact ⟨_, hc, h⟩
  · rintro ⟨c, hc, h⟩
    exact .part hc h

def isVar : Ty → Bool
  | .var _ => true
  | _ => false

theorem isVar_iff : t.isVar = true ↔ ∃ id, t = .var id := by
  cases t with
  | var id => exact ⟨fun _ => ⟨id, rfl⟩, fun _ => rfl⟩
  | _ =>
    constructor
    · intro h
      cases h
    · rintro ⟨id, h⟩
      cases h

theorem isVar_rebuild (ht : t.isVar = false) (parts : List Ty) :
    (t.rebuild parts).isVar = false := by
  fun_cases rebuild t parts
  all_goals first | rfl | exact ht

theorem ne_var_of_isVar (ht : t.isVar = false) (v : TyVarId) : t ≠ .var v := by
  rintro rfl
  cases ht

/-! ### Predicates and the printed form -/

def isFunction : Ty → Bool
  | .function _ _ _ => true
  | _ => false

/-- A function type appears in the type. -/
def typeHasFn (t : Ty) : Bool :=
  t.isFunction || t.children.attach.any fun c => typeHasFn c.1
termination_by sizeOf t
decreasing_by exact sizeOf_lt_of_mem_children c.2

def isInteger : Ty → Bool
  | .prim p => p ∈ [.i8, .i16, .i32, .i64, .i128, .u8, .u16, .u32, .u64, .u128, .usize, .isize]
  | _ => false

def signedRank : Ty → Option Nat
  | .prim .i8 => some 0
  | .prim .i16 => some 1
  | .prim .i32 => some 2
  | .prim .i64 | .prim .isize => some 3
  | .prim .i128 => some 4
  | _ => none

def unsignedRank : Ty → Option Nat
  | .prim .u8 => some 0
  | .prim .u16 => some 1
  | .prim .u32 | .prim .usize => some 2
  | .prim .u64 => some 3
  | .prim .u128 => some 4
  | _ => none

/-- An integer type can be widened to another. An unsigned one can always be widened to `i64`. -/
def isIntWidening (source target : Ty) : Bool :=
  if target = .prim .i64 ∧ unsignedRank source ≠ none then true
  else
    match signedRank source, signedRank target with
    | some r, some r' => r < r'
    | _, _ =>
      match unsignedRank source, unsignedRank target with
      | some r, some r' => r < r'
      | _, _ => false

theorem signedRank_eq_none (h : t.isInteger = false) : t.signedRank = none := by
  fun_cases signedRank t
  all_goals first | rfl | cases h

theorem unsignedRank_eq_none (h : t.isInteger = false) : t.unsignedRank = none := by
  fun_cases unsignedRank t
  all_goals first | rfl | cases h

theorem isInteger_of_isIntWidening {t' : Ty} (h : t.isIntWidening t' = true) :
    t.isInteger = true := by
  by_contra hint
  rw [Bool.not_eq_true] at hint
  rw [isIntWidening, signedRank_eq_none hint, unsignedRank_eq_none hint] at h
  simp at h

/-- The type has no other type to unify with than those with the same head: no integer, no `never`,
no array, which forgets its size, no callable, no trait object, and not the enums that stand in for
`Result` and `Option`. -/
def invariantHead : Ty → Bool
  | .prim p => !(prim p).isInteger && p ≠ .never
  | .enum name _ => name ≠ "Result" && name ≠ "Option"
  | .array _ _ | .function _ _ _ | .dynTrait _ | .error => false
  | _ => true

/-- A type built from variables and constructors that unify with nothing but themselves. -/
inductive Invariant : Ty → Prop
  | mk {t : Ty} (head : t.invariantHead = true) (parts : ∀ c ∈ t.children, Invariant c) : Invariant t

theorem invariantHead_rebuild (t : Ty) (parts : List Ty) :
    (t.rebuild parts).invariantHead = t.invariantHead := by
  fun_cases rebuild t parts
  all_goals rfl

theorem Invariant.typeHasFn (h : t.Invariant) : t.typeHasFn = false := by
  induction h with
  | @mk t head _ ih =>
    rw [Ty.typeHasFn, Bool.or_eq_false_iff, List.any_eq_false]
    constructor
    · cases t with
      | function => cases head
      | _ => rfl
    · intro c _
      rw [ih c.1 c.2]
      exact Bool.false_ne_true

def Prim.display : Prim → String
  | .i8 => "i8" | .i16 => "i16" | .i32 => "i32" | .i64 => "i64" | .i128 => "i128"
  | .u8 => "u8" | .u16 => "u16" | .u32 => "u32" | .u64 => "u64" | .u128 => "u128"
  | .f32 => "f32" | .f64 => "f64"
  | .bool => "bool" | .char => "char" | .str => "str"
  | .usize => "usize" | .isize => "isize"
  | .void => "void"
  | .never => "!"

mutual

def display : Ty → String
  | .prim p => Prim.display p
  | .array t (some n) => "[" ++ display t ++ "; " ++ toString n ++ "]"
  | .array t none => "[" ++ display t ++ "]"
  | .tuple ts => "(" ++ displayList ts ++ ")"
  | .map k v => "map<" ++ display k ++ ", " ++ display v ++ ">"
  | .set t => "set<" ++ display t ++ ">"
  | .option t => "Option<" ++ display t ++ ">"
  | .result t u => "Result<" ++ display t ++ ", " ++ display u ++ ">"
  | .struct name [] | .enum name [] => name
  | .struct name (t :: ts) | .enum name (t :: ts) =>
    name ++ "<" ++ displayList (t :: ts) ++ ">"
  | .function ts t _ => "fn(" ++ displayList ts ++ ") -> " ++ display t
  | .reference t true => "&mut " ++ display t
  | .reference t false => "&" ++ display t
  | .shared t => "shared " ++ display t
  | .weak t => "weak " ++ display t
  | .pointer t true => "*mut " ++ display t
  | .pointer t false => "*const " ++ display t
  | .dynTrait name => "dyn " ++ name
  | .var id => "?T" ++ toString id
  | .error => "<error>"

def displayList : List Ty → String
  | [] => ""
  | [t] => display t
  | t :: ts => display t ++ ", " ++ displayList ts

end

end Ty

end Kryos.Types

import Kryos.Lib.BoundedSearch
import Kryos.Decl

/-!
# Types that hold function values

The checker asks of a declared type whether a function value can be read out of it through fields
and indices. It follows the type graph, which may have cycles through the structs, for eight steps.

## Main results

* `isFnBearingType_iff` — the types the checker finds to hold function values
* `isFnBearingType_reaches` — in terms of what can be reached in the type graph
-/

namespace Kryos.Capabilities

open Kryos.Ast Relation BoundedSearch

/-- The declared structs: the types of their fields, and the names of their type parameters. -/
structure Structs where
  structFieldTypes : String → Option (List (String × TypeExpr))
  structGenericParams : String → Option (List String)

namespace Structs

/-- A later declaration of a name replaces an earlier one. -/
def collectStructFieldTypes (S : Structs) : List Decl → Structs
  | [] => S
  | .struct name generics fields .. :: decls =>
    collectStructFieldTypes
      { structFieldTypes := Function.update S.structFieldTypes name
          (some (fields.map fun f => (f.name, f.ty)))
        structGenericParams := Function.update S.structGenericParams name
          (some (generics.map GenericParam.name)) } decls
  | _ :: decls => collectStructFieldTypes S decls

/-- The structs of a module. -/
def ofDecls (decls : List Decl) : Structs :=
  collectStructFieldTypes ⟨fun _ => none, fun _ => none⟩ decls

end Structs

mutual

def substituteGenericType (subst : String → Option TypeExpr) : TypeExpr → TypeExpr
  | .simple name span => (subst name).getD (.simple name span)
  | .generic name args span => .generic name (substituteGenericTypes subst args) span
  | .array element size span => .array (substituteGenericType subst element) size span
  | .tuple elements span => .tuple (substituteGenericTypes subst elements) span
  | .function params ret span =>
    .function (substituteGenericTypes subst params) (substituteGenericType subst ret) span
  | .optional inner span => .optional (substituteGenericType subst inner) span
  | .reference inner mutable span => .reference (substituteGenericType subst inner) mutable span
  | .shared inner span => .shared (substituteGenericType subst inner) span
  | .weak inner span => .weak (substituteGenericType subst inner) span
  | .pointer inner mutable span => .pointer (substituteGenericType subst inner) mutable span
  | .dynTrait traitName span => .dynTrait traitName span
  | .inferred span => .inferred span

def substituteGenericTypes (subst : String → Option TypeExpr) : List TypeExpr → List TypeExpr
  | [] => []
  | t :: ts => substituteGenericType subst t :: substituteGenericTypes subst ts

end

namespace Structs

variable (S : Structs)

/-- The fields of a struct, with the type arguments for its parameters. Of two parameters with one
name the later counts. -/
def structFieldsFor (structName : String) (typeArgs : List TypeExpr) :
    Option (List (String × TypeExpr)) := do
  let fields ← S.structFieldTypes structName
  match S.structGenericParams structName with
  | none => return fields
  | some genericNames =>
    if typeArgs.isEmpty || genericNames.isEmpty then return fields
    let subst := (genericNames.zip typeArgs).reverse
    return fields.map fun (n, t) => (n, substituteGenericType (fun name => subst.lookup name) t)

/-- `map<K, V>` -/
def isMap (name : String) (args : List TypeExpr) : Bool :=
  (name = "map" || name = "Map") && args.length = 2

/-- `is_fn_bearing_type_inner`, where `levels` is 9 less the depth. -/
def isFnBearingTypeInner : ℕ → TypeExpr → Bool
  | 0, _ => false
  | levels + 1, ty =>
    match ty with
    | .function .. => true
    | .array element _ _ => isFnBearingTypeInner levels element
    | .tuple elements _ => elements.any (isFnBearingTypeInner levels)
    | .optional inner _ => isFnBearingTypeInner levels inner
    | .reference inner _ _ => isFnBearingTypeInner levels inner
    | .shared inner _ => isFnBearingTypeInner levels inner
    | .weak inner _ => isFnBearingTypeInner levels inner
    | .pointer inner _ _ => isFnBearingTypeInner levels inner
    | .generic name args _ =>
      if isMap name args then (args[1]?).any (isFnBearingTypeInner levels)
      else (S.structFieldsFor name args).any fun fields =>
        fields.any fun (_, fty) => isFnBearingTypeInner levels fty
    | .simple name _ => (S.structFieldsFor name []).any fun fields =>
        fields.any fun (_, fty) => isFnBearingTypeInner levels fty
    | .dynTrait .. | .inferred .. => true

def isFnBearingType : Option TypeExpr → Bool
  | some t => S.isFnBearingTypeInner 9 t
  | none => false

/-! ## The type graph -/

/-- The type may itself be a function value. -/
def bears : TypeExpr → Bool
  | .function .. | .dynTrait .. | .inferred .. => true
  | _ => false

/-- What a value of the type contains. A type `map` or `Map` with two arguments is a map. -/
inductive Contains : TypeExpr → TypeExpr → Prop where
  | element (t : TypeExpr) (size : Option ℕ) (span : Span) : Contains (.array t size span) t
  | member (ts : List TypeExpr) (span : Span) {t : TypeExpr} (h : t ∈ ts) :
    Contains (.tuple ts span) t
  | optional (t : TypeExpr) (span : Span) : Contains (.optional t span) t
  | value (name : String) (k v : TypeExpr) (span : Span) (h : name = "map" ∨ name = "Map") :
    Contains (.generic name [k, v] span) v
  | field (name : String) (span : Span) {fields : List (String × TypeExpr)} {f : String}
    {t : TypeExpr} (hfields : S.structFieldsFor name [] = some fields) (h : (f, t) ∈ fields) :
    Contains (.simple name span) t
  | genericField (name : String) (args : List TypeExpr) (span : Span)
    {fields : List (String × TypeExpr)} {f : String} {t : TypeExpr}
    (hmap : isMap name args = false) (hfields : S.structFieldsFor name args = some fields)
    (h : (f, t) ∈ fields) : Contains (.generic name args span) t

/-- What a value of the type refers to. -/
inductive Refers : TypeExpr → TypeExpr → Prop where
  | reference (t : TypeExpr) (mutable : Bool) (span : Span) : Refers (.reference t mutable span) t
  | shared (t : TypeExpr) (span : Span) : Refers (.shared t span) t
  | weak (t : TypeExpr) (span : Span) : Refers (.weak t span) t
  | pointer (t : TypeExpr) (mutable : Bool) (span : Span) : Refers (.pointer t mutable span) t

/-- What the checker does not follow: an optional written as `Option<T>`, and the fields of a
declared struct that has the name of the built-in map. -/
inductive Unfollowed : TypeExpr → TypeExpr → Prop where
  | option (t : TypeExpr) (span : Span) : Unfollowed (.generic "Option" [t] span) t
  | mapField (name : String) (args : List TypeExpr) (span : Span)
    {fields : List (String × TypeExpr)} {f : String} {t : TypeExpr} (hmap : isMap name args = true)
    (hfields : S.structFieldsFor name args = some fields) (h : (f, t) ∈ fields) :
    Unfollowed (.generic name args span) t

/-- What the checker follows. -/
def parts : TypeExpr → List TypeExpr
  | .array element _ _ => [element]
  | .tuple elements _ => elements
  | .optional inner _ => [inner]
  | .reference inner _ _ => [inner]
  | .shared inner _ => [inner]
  | .weak inner _ => [inner]
  | .pointer inner _ _ => [inner]
  | .generic name args _ =>
    if isMap name args then (args[1]?).toList
    else ((S.structFieldsFor name args).getD []).map Prod.snd
  | .simple name _ => ((S.structFieldsFor name []).getD []).map Prod.snd
  | .function .. | .dynTrait .. | .inferred .. => []

theorem any_fields (fields : Option (List (String × TypeExpr))) (p : TypeExpr → Bool) :
    (fields.any fun fields => fields.any fun (_, t) => p t) =
      ((fields.getD []).map Prod.snd).any p := by
  cases fields with
  | none => rfl
  | some fields =>
    rw [Option.getD_some, List.any_map]
    rfl

/-- The checker's walk is a search to a depth. -/
theorem isFnBearingTypeInner_eq (levels : ℕ) (ty : TypeExpr) :
    S.isFnBearingTypeInner levels ty = search bears S.parts levels ty := by
  induction levels generalizing ty with
  | zero => rfl
  | succ levels ih =>
    have ih' : S.isFnBearingTypeInner levels = search bears S.parts levels := funext ih
    cases ty with
    | function | dynTrait | inferred => rfl
    | array | optional | reference | shared | weak | pointer =>
      rw [isFnBearingTypeInner, ih', search]
      simp [bears, parts]
    | tuple =>
      rw [isFnBearingTypeInner, ih', search]
      simp [bears, parts]
    | simple name =>
      rw [isFnBearingTypeInner, ih', search]
      exact any_fields _ _
    | generic name args =>
      rw [isFnBearingTypeInner, ih', search, parts]
      by_cases hmap : isMap name args
      · rw [if_pos hmap, if_pos hmap]
        cases args[1]? with
        | none => rfl
        | some t => simp [bears]
      · rw [if_neg hmap, if_neg hmap]
        exact any_fields _ _

theorem mem_fields {fields : Option (List (String × TypeExpr))} {u : TypeExpr} :
    u ∈ (fields.getD []).map Prod.snd ↔ ∃ fs f, fields = some fs ∧ (f, u) ∈ fs := by
  cases fields with
  | none | some fs => simp

/-- What the checker follows in one step. -/
def Follows (t u : TypeExpr) : Prop := S.Contains t u ∨ Refers t u

theorem follows_of_mem_parts {t u : TypeExpr} (h : u ∈ S.parts t) : S.Follows t u := by
  cases t with
  | function | dynTrait | inferred => cases h
  | array element size span =>
    cases List.mem_singleton.mp h
    exact .inl (.element _ size span)
  | tuple elements span => exact .inl (.member elements span h)
  | optional inner span =>
    cases List.mem_singleton.mp h
    exact .inl (.optional _ span)
  | reference inner mutable span =>
    cases List.mem_singleton.mp h
    exact .inr (.reference _ mutable span)
  | shared inner span =>
    cases List.mem_singleton.mp h
    exact .inr (.shared _ span)
  | weak inner span =>
    cases List.mem_singleton.mp h
    exact .inr (.weak _ span)
  | pointer inner mutable span =>
    cases List.mem_singleton.mp h
    exact .inr (.pointer _ mutable span)
  | simple name span =>
    obtain ⟨fields, f, hfields, hmem⟩ := mem_fields.mp h
    exact .inl (.field name span hfields hmem)
  | generic name args span =>
    rw [parts] at h
    by_cases hmap : isMap name args
    · rw [if_pos hmap] at h
      obtain ⟨hname, hlength⟩ := (Bool.and_eq_true _ _).mp hmap
      obtain ⟨k, v, rfl⟩ := List.length_eq_two.mp (of_decide_eq_true hlength)
      cases List.mem_singleton.mp h
      exact .inl (.value name k u span (by simpa using hname))
    · rw [if_neg hmap] at h
      obtain ⟨fields, f, hfields, hmem⟩ := mem_fields.mp h
      exact .inl (.genericField name args span (eq_false_of_ne_true hmap) hfields hmem)

theorem mem_parts_of_follows {t u : TypeExpr} (h : S.Follows t u) : u ∈ S.parts t := by
  obtain hcontains | hrefers := h
  · cases hcontains with
    | element | optional => exact List.mem_singleton_self _
    | member _ _ hmem => exact hmem
    | value name k _ span hname =>
      have hmap : isMap name [k, u] = true := by simpa [isMap] using hname
      rw [parts, if_pos hmap]
      exact List.mem_singleton_self _
    | field name span hfields hmem => exact mem_fields.mpr ⟨_, _, hfields, hmem⟩
    | genericField name args span hmap hfields hmem =>
      rw [parts, if_neg (ne_true_of_eq_false hmap)]
      exact mem_fields.mpr ⟨_, _, hfields, hmem⟩
  · cases hrefers with
    | reference | shared | weak | pointer => exact List.mem_singleton_self _

/-- **What the checker finds.** -/
theorem isFnBearingType_iff (t : TypeExpr) : S.isFnBearingType (some t) = true ↔
    ∃ u, bears u = true ∧ Within S.Follows 8 t u := by
  have hstep : (fun t u => u ∈ S.parts t) = S.Follows :=
    funext fun _ => funext fun _ => propext ⟨S.follows_of_mem_parts, S.mem_parts_of_follows⟩
  rw [← hstep, ← search_iff, ← isFnBearingTypeInner_eq]
  rfl

/-! ## Reachability -/

/-- A function value is reached through array elements, tuple members, optionals, map values and
struct fields. -/
def Reaches (t : TypeExpr) : Prop :=
  ∃ u, bears u = true ∧ ReflTransGen (fun t u => S.Contains t u ∨ S.Unfollowed t u) t u

/-- A function value is reached in these ways or through references, shared and weak references and
pointers. -/
def ReachesOrRefers (t : TypeExpr) : Prop :=
  ∃ u, bears u = true ∧
    ReflTransGen (fun t u => S.Contains t u ∨ Refers t u ∨ S.Unfollowed t u) t u

/-- **Types that hold function values.** What is reached within eight steps is found, and only what
is reached. -/
theorem isFnBearingType_reaches (t : TypeExpr) :
    (∀ u, bears u = true → Within S.Follows 8 t u → S.isFnBearingType (some t) = true) ∧
    (S.isFnBearingType (some t) = true → S.ReachesOrRefers t) := by
  refine ⟨fun u hu hwithin => (S.isFnBearingType_iff t).mpr ⟨u, hu, hwithin⟩, fun h => ?_⟩
  obtain ⟨u, hu, hwithin⟩ := (S.isFnBearingType_iff t).mp h
  have hmono : ∀ a b, S.Follows a b → S.Contains a b ∨ Refers a b ∨ S.Unfollowed a b :=
    fun a b hstep => hstep.imp_right .inl
  exact ⟨u, hu, ReflTransGen.mono hmono _ _ (reflTransGen_of_within hwithin)⟩

end Structs

/-! ## A reference, and an array of arrays -/

def typeSpan : Span := ⟨0, 0, 0⟩

/-- `fn() -> void` in this many arrays -/
def arrays : ℕ → TypeExpr
  | 0 => .function [] (.simple "void" typeSpan) typeSpan
  | n + 1 => .array (arrays n) none typeSpan

theorem reaches_arrays (S : Structs) (n : ℕ) : S.Reaches (arrays n) := by
  refine ⟨arrays 0, rfl, ?_⟩
  induction n with
  | zero => exact .refl
  | succ n ih => exact .head (.inl (.element _ none typeSpan)) ih

/-- `&fn() -> void` is found and is not reached; nine arrays of it are reached and not found. -/
theorem reference_found_arrays_missed :
    ¬((Structs.ofDecls []).isFnBearingType (some (.reference (arrays 0) false typeSpan)) = true ↔
      (Structs.ofDecls []).Reaches (.reference (arrays 0) false typeSpan)) ∧
    ¬((Structs.ofDecls []).isFnBearingType (some (arrays 9)) = true ↔
      (Structs.ofDecls []).Reaches (arrays 9)) := by
  constructor
  · intro h
    obtain ⟨u, hu, hreach⟩ := h.mp rfl
    obtain rfl | ⟨v, hstep | hstep, -⟩ := hreach.cases_head
    · cases hu
    · cases hstep
    · cases hstep
  · intro h
    have hfound := h.mpr (reaches_arrays _ 9)
    cases hfound

end Kryos.Capabilities

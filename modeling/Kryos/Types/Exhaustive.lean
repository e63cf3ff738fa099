import Mathlib
import Kryos.Ast
import Kryos.Types.Ty

/-!
# Exhaustiveness of match expressions

The check behind a `match` looks at the outermost constructor of each pattern without a guard: for
an enum it collects the variants that are named, for `bool` the literals, and for the other scalars
it asks for a catch-all. What a match needs is that each value of the type of its subject is matched
by one of the patterns, payloads included.

## Main results

* `Exhaustive.matches_iff_leaves` — an or-pattern matches what one of its alternatives matches
* `Exhaustive.checkVariants_iff`, `Exhaustive.covered_variants_iff` — what the check of an enum
  sees, and what there is to see
* `Exhaustive.correct_iff` — for which patterns the check is right
-/

namespace Kryos.Types.Exhaustive

open Ast

/-! ## The check -/

structure EnumDef where
  name : String
  variants : List (String × List Ty)
  /-- duplicate variants are rejected before -/
  nodup : (variants.map Prod.fst).Nodup
  /-- the built-in types of these names are not user enums -/
  userNamed : name ≠ "bool" ∧ name ≠ "Option" ∧ name ≠ "Result"

structure Diagnostic where
  isError : Bool
  message : String
  code : Option String
  span : Span
  label : String
  deriving DecidableEq, Repr

/-- Collects the variants that a pattern covers, and whether it is a catch-all. -/
structure Coverage where
  covered : List String
  hasCatchall : Bool

mutual

def collectVariantCoverage (variants : List String) : Pattern → Coverage → Coverage
  | .wildcard _, c => { c with hasCatchall := true }
  | .ident name _ _, c =>
    -- A bare variant is a test, any other name a binding.
    if name ∈ variants then { c with covered := name :: c.covered }
    else { c with hasCatchall := true }
  | .enum _ variant _ _, c => { c with covered := variant :: c.covered }
  | .or patterns _, c => collectAll variants patterns c
  | .literal _ _, c | .tuple _ _, c | .struct _ _ _, c => c

def collectAll (variants : List String) : List Pattern → Coverage → Coverage
  | [], c => c
  | p :: ps, c => collectAll variants ps (collectVariantCoverage variants p c)

end

/-- The names, in the order in which they are reported. -/
def quoted (names : List String) : String :=
  ", ".intercalate (names.map fun v => "`" ++ v ++ "`")

def checkVariantExhaustive (patterns : List Pattern) (variants : List String) (span : Span) :
    List Diagnostic :=
  let c := collectAll variants patterns ⟨[], false⟩
  if c.hasCatchall then []
  else
    let missing := variants.filter fun v => v ∉ c.covered
    if missing = [] then []
    else
      [⟨true, "non-exhaustive match: missing variant(s) " ++
        quoted (missing.mergeSort fun a b => decide (a ≤ b)), some "E0112", span,
        "add the missing variant(s) or a wildcard `_`"⟩]

def isWildcardOrIdent : Pattern → Bool
  | .wildcard _ | .ident _ _ _ => true
  | _ => false

def hasWildcardOrIdent (patterns : List Pattern) : Bool :=
  patterns.any isWildcardOrIdent

/-- The pattern is the literal `b`. -/
def isBoolLiteral (b : Bool) : Pattern → Bool
  | .literal (.boolLiteral value _) _ => value == b
  | _ => false

/-- The loop over the patterns; `none` when an or-pattern has a catch-all among its
alternatives. -/
def seenBools : List Pattern → Bool → Bool → Option (Bool × Bool)
  | [], seenTrue, seenFalse => some (seenTrue, seenFalse)
  | .or alts _ :: pats, seenTrue, seenFalse =>
    if hasWildcardOrIdent alts then none
    else
      seenBools pats (seenTrue || alts.any (isBoolLiteral true))
        (seenFalse || alts.any (isBoolLiteral false))
  | pat :: pats, seenTrue, seenFalse =>
    seenBools pats (seenTrue || isBoolLiteral true pat) (seenFalse || isBoolLiteral false pat)

def checkBool (patterns : List Pattern) (span : Span) : List Diagnostic :=
  match seenBools patterns false false with
  | none => []
  | some (seenTrue, seenFalse) =>
    if seenTrue && seenFalse then []
    else
      let missing :=
        match seenTrue, seenFalse with
        | true, false => "`false`"
        | false, true => "`true`"
        | _, _ => "`true` and `false`"
      [⟨true, "non-exhaustive match: missing " ++ missing, some "E0112", span,
        "add the missing case(s) or a wildcard `_`"⟩]

mutual

def isIrrefutableSubpat : Pattern → Bool
  | .wildcard _ | .ident _ _ _ => true
  | .struct _ fields _ => allFieldsIrrefutable fields
  | .tuple elements _ => allIrrefutable elements
  | .literal _ _ | .enum _ _ _ _ | .or _ _ => false

def allIrrefutable : List Pattern → Bool
  | [] => true
  | p :: ps => isIrrefutableSubpat p && allIrrefutable ps

def allFieldsIrrefutable : List (String × Pattern) → Bool
  | [] => true
  | (_, p) :: fields => isIrrefutableSubpat p && allFieldsIrrefutable fields

end

def isIrrefutableStructPattern : Pattern → Bool
  | .struct name fields span => isIrrefutableSubpat (.struct name fields span)
  | _ => false

def checkRequiresWildcard (typeName : String) (span : Span) : List Diagnostic :=
  [⟨false, "non-exhaustive match on `" ++ typeName ++ "`: add a wildcard `_` or catch-all pattern",
    none, span, "this match is not exhaustive"⟩]

def checkExhaustive (subjectTypeName : String) (patterns : List Pattern)
    (enumDef : Option EnumDef) (span : Span) : List Diagnostic :=
  if subjectTypeName = "bool" then
    if hasWildcardOrIdent patterns then [] else checkBool patterns span
  else if subjectTypeName = "Option" then
    checkVariantExhaustive patterns ["None", "Some"] span
  else if subjectTypeName = "Result" then
    checkVariantExhaustive patterns ["Ok", "Err"] span
  else
    match enumDef with
    | some d => checkVariantExhaustive patterns (d.variants.map Prod.fst) span
    | none =>
      if hasWildcardOrIdent patterns then []
      else if patterns.any isIrrefutableStructPattern then []
      else checkRequiresWildcard subjectTypeName span

/-! ## Values and what they match -/

/-- The enums and the structs of the program, at the types they are used at. -/
structure Defs where
  enums : String → List Ty → Option EnumDef
  structs : String → List Ty → Option (List (String × Ty))

variable (Γ : Defs)

/-- The variants of a type, with the types of their payloads. -/
def variantsOf : Ty → List (String × List Ty)
  | .option inner => [("None", []), ("Some", [inner])]
  | .result ok err => [("Ok", [ok]), ("Err", [err])]
  | .enum name generics =>
    match Γ.enums name generics with
    | some d => d.variants
    | none => []
  | _ => []

def fieldsOf : Ty → List (String × Ty)
  | .struct name generics => (Γ.structs name generics).getD []
  | _ => []

inductive Value where
  | bool (b : Bool)
  | int (n : Int)
  | str (s : String)
  | char (c : Char)
  | tuple (elements : List Value)
  | struct (fields : List (String × Value))
  | variant (name : String) (fields : List Value)
  /-- a value that no pattern looks into -/
  | other (id : ℕ)

/-- The values of an integer type. -/
def intRange : Prim → Option (Int × Int)
  | .i8 => some (-2 ^ 7, 2 ^ 7)
  | .i16 => some (-2 ^ 15, 2 ^ 15)
  | .i32 => some (-2 ^ 31, 2 ^ 31)
  | .i64 => some (-2 ^ 63, 2 ^ 63)
  | .i128 => some (-2 ^ 127, 2 ^ 127)
  | .u8 => some (0, 2 ^ 8)
  | .u16 => some (0, 2 ^ 16)
  | .u32 => some (0, 2 ^ 32)
  | .u64 => some (0, 2 ^ 64)
  | .u128 => some (0, 2 ^ 128)
  | _ => none

/-- The scalars. -/
inductive HasPrim : Value → Prim → Prop
  | bool (b : Bool) : HasPrim (.bool b) .bool
  | int {p : Prim} {lo hi n : Int} (hp : intRange p = some (lo, hi)) (hlo : lo ≤ n) (hhi : n < hi) :
    HasPrim (.int n) p
  | str (s : String) : HasPrim (.str s) .str
  | char (c : Char) : HasPrim (.char c) .char

/-- The types whose values no pattern looks into. -/
def isOther : Ty → Prop
  | .array .. | .map .. | .set .. | .function .. | .reference .. | .shared .. | .weak ..
  | .pointer .. | .dynTrait .. => True
  | .prim p => p = .f32 ∨ p = .f64 ∨ p = .usize ∨ p = .isize
  | _ => False

mutual

inductive HasType : Value → Ty → Prop
  | prim {v : Value} {p : Prim} (h : HasPrim v p) : HasType v (.prim p)
  | variant {ty : Ty} {name : String} {fields : List Value} {tys : List Ty}
    (hname : (name, tys) ∈ variantsOf Γ ty) (hfields : HasTypes fields tys) :
    HasType (.variant name fields) ty
  | tuple {vs : List Value} {tys : List Ty} (h : HasTypes vs tys) : HasType (.tuple vs) (.tuple tys)
  | struct {name : String} {generics : List Ty} {fields : List (String × Value)}
    (hnames : fields.map Prod.fst = (fieldsOf Γ (.struct name generics)).map Prod.fst)
    (hfields : HasTypes (fields.map Prod.snd)
      ((fieldsOf Γ (.struct name generics)).map Prod.snd)) :
    HasType (.struct fields) (.struct name generics)
  | other {ty : Ty} (id : ℕ) (h : isOther ty) : HasType (.other id) ty

inductive HasTypes : List Value → List Ty → Prop
  | nil : HasTypes [] []
  | cons {v : Value} {ty : Ty} {vs : List Value} {tys : List Ty} (h : HasType v ty)
    (hs : HasTypes vs tys) : HasTypes (v :: vs) (ty :: tys)

end

/-- The payload of a value with this tag. -/
def Value.payloadOf (name : String) : Value → Option (List Value)
  | .variant tag fields => if tag = name then some fields else none
  | _ => none

def Value.structFields : Value → Option (List (String × Value))
  | .struct fields => some fields
  | _ => none

/-- The types and the values of the elements of a tuple. -/
def tupleParts : Ty → Value → Option (List Ty × List Value)
  | .tuple tys, .tuple vs => some (tys, vs)
  | _, _ => none

def literalMatches : Expr → Value → Bool
  | .boolLiteral b _, .bool b' => b == b'
  | .intLiteral n _, .int n' => n == n'
  | .stringLiteral s _, .str s' => s == s'
  | .charLiteral c _, .char c' => c == c'
  | _, _ => false

/-- The payload types of a variant. -/
def payloadTypes (ty : Ty) (variant : String) : List Ty :=
  ((variantsOf Γ ty).lookup variant).getD []

mutual

/-- The pattern matches a value of the type. A name is a test where the type has a variant of that
name; a payload that the pattern of a variant leaves out is not looked at. -/
def «matches» : Pattern → Ty → Value → Bool
  | .wildcard _, _, _ => true
  | .ident name _ _, ty, v =>
    if name ∈ (variantsOf Γ ty).map Prod.fst then (v.payloadOf name).isSome else true
  | .literal e _, _, v => literalMatches e v
  | .tuple ps _, ty, v =>
    match tupleParts ty v with
    | some (tys, vs) => matchesAll ps tys vs
    | none => false
  | .struct _ fields _, ty, v =>
    match v.structFields with
    | some vs => matchesFields fields (fieldsOf Γ ty) vs
    | none => false
  | .enum _ variant ps _, ty, v =>
    match v.payloadOf variant with
    | some vs => matchesAll ps (payloadTypes Γ ty variant) vs
    | none => false
  | .or ps _, ty, v => matchesAny ps ty v

/-- The patterns match the values one by one. -/
def matchesAll : List Pattern → List Ty → List Value → Bool
  | [], _, _ => true
  | p :: ps, ty :: tys, v :: vs => «matches» p ty v && matchesAll ps tys vs
  | _ :: _, _, _ => false

def matchesFields : List (String × Pattern) → List (String × Ty) → List (String × Value) → Bool
  | [], _, _ => true
  | (name, p) :: fields, tys, vs =>
    match tys.lookup name, vs.lookup name with
    | some ty, some v => «matches» p ty v && matchesFields fields tys vs
    | _, _ => false

/-- One of the patterns matches the value. -/
def matchesAny : List Pattern → Ty → Value → Bool
  | [], _, _ => false
  | p :: ps, ty, v => «matches» p ty v || matchesAny ps ty v

end


/-! ## Subjects and their patterns -/

/-- The name of a scalar type that has literals and no two-valued check. -/
def scalarName : Prim → Option String
  | .i8 => some "i8"
  | .i16 => some "i16"
  | .i32 => some "i32"
  | .i64 => some "i64"
  | .i128 => some "i128"
  | .u8 => some "u8"
  | .u16 => some "u16"
  | .u32 => some "u32"
  | .u64 => some "u64"
  | .u128 => some "u128"
  | .str => some "str"
  | .char => some "char"
  | _ => none

/-- What is matched on. -/
inductive Subject where
  | bool
  | scalar (p : Prim) (name : String) (h : scalarName p = some name)
  | option (inner : Ty)
  | result (ok err : Ty)
  | enum (d : EnumDef) (generics : List Ty) (h : Γ.enums d.name generics = some d)

namespace Subject

variable {Γ}

def ty : Subject Γ → Ty
  | bool => .prim .bool
  | scalar p _ _ => .prim p
  | option inner => .option inner
  | result ok err => .result ok err
  | enum d generics _ => .enum d.name generics

def typeName : Subject Γ → String
  | bool => "bool"
  | scalar _ name _ => name
  | option _ => "Option"
  | result _ _ => "Result"
  | enum d _ _ => d.name

/-- The definition that is looked up under the name. -/
def enumDef : Subject Γ → Option EnumDef
  | enum d _ _ => some d
  | _ => none

end Subject

/-- The literal is one of the type. -/
def literalOfType : Expr → Ty → Prop
  | .boolLiteral _ _, ty => ty = .prim .bool
  | .intLiteral n _, ty => ∃ p lo hi, ty = .prim p ∧ intRange p = some (lo, hi) ∧ lo ≤ n ∧ n < hi
  | .stringLiteral _ _, ty => ty = .prim .str
  | .charLiteral _ _, ty => ty = .prim .char
  | _, _ => False

mutual

/-- The pattern is one that the type checker accepts for the type. -/
def ofType : Pattern → Ty → Prop
  | .wildcard _, _ => True
  | .ident _ _ _, _ => True
  | .literal e _, ty => literalOfType e ty
  | .tuple ps _, ty => ∃ tys, ty = .tuple tys ∧ ps.length = tys.length ∧ allOfType ps tys
  | .struct name fields _, ty =>
    ∃ generics, ty = .struct name generics ∧ fieldsOfType fields (fieldsOf Γ ty)
  | .enum _ variant ps _, ty =>
    variant ∈ (variantsOf Γ ty).map Prod.fst ∧ ps.length ≤ (payloadTypes Γ ty variant).length ∧
      allOfType ps (payloadTypes Γ ty variant)
  | .or ps _, ty => alternativesOfType ps ty

def allOfType : List Pattern → List Ty → Prop
  | [], _ => True
  | _ :: _, [] => False
  | p :: ps, ty :: tys => ofType p ty ∧ allOfType ps tys

def fieldsOfType : List (String × Pattern) → List (String × Ty) → Prop
  | [], _ => True
  | (name, p) :: fields, tys =>
    (∃ ty, tys.lookup name = some ty ∧ ofType p ty) ∧ fieldsOfType fields tys

def alternativesOfType : List Pattern → Ty → Prop
  | [], _ => True
  | p :: ps, ty => ofType p ty ∧ alternativesOfType ps ty

end

/-- The patterns of the arms without a guard. -/
def Patterns (S : Subject Γ) : Type :=
  { pats : List Pattern // ∀ p ∈ pats, ofType Γ p S.ty }

/-- Each value of the type of the subject is matched. -/
def AllMatched (ty : Ty) (pats : List Pattern) : Prop :=
  ∀ v, HasType Γ v ty → ∃ p ∈ pats, «matches» Γ p ty v = true

variable {Γ}

/-- The check reports nothing exactly if there is nothing to report. -/
def Correct (S : Subject Γ) (pats : Patterns Γ S) (span : Span) : Prop :=
  checkExhaustive S.typeName pats.1 S.enumDef span = [] ↔ AllMatched Γ S.ty pats.1

/-! ## Alternatives -/

mutual

/-- The alternatives of a pattern, those of its or-patterns among them. -/
def leaves : Pattern → List Pattern
  | .or ps _ => leavesAll ps
  | .wildcard span => [.wildcard span]
  | .ident name m span => [.ident name m span]
  | .literal e span => [.literal e span]
  | .tuple ps span => [.tuple ps span]
  | .struct name fields span => [.struct name fields span]
  | .enum name variant ps span => [.enum name variant ps span]

def leavesAll : List Pattern → List Pattern
  | [] => []
  | p :: ps => leaves p ++ leavesAll ps

end

mutual

theorem matches_iff_leaves (p : Pattern) (ty : Ty) (v : Value) :
    «matches» Γ p ty v = true ↔ ∃ l ∈ leaves p, «matches» Γ l ty v = true := by
  match p with
  | .or ps _ =>
    rw [«matches», leaves]
    exact matchesAny_iff_leaves ps ty v
  | .wildcard _ | .ident _ _ _ | .literal _ _ | .tuple _ _ | .struct _ _ _ | .enum _ _ _ _ =>
    simp [leaves]

theorem matchesAny_iff_leaves (ps : List Pattern) (ty : Ty) (v : Value) :
    matchesAny Γ ps ty v = true ↔ ∃ l ∈ leavesAll ps, «matches» Γ l ty v = true := by
  match ps with
  | [] => simp [matchesAny, leavesAll]
  | p :: ps =>
    rw [matchesAny, leavesAll, Bool.or_eq_true, matches_iff_leaves p, matchesAny_iff_leaves ps]
    simp only [List.mem_append, or_and_right, exists_or]

end

theorem exists_matches_iff (pats : List Pattern) (ty : Ty) (v : Value) :
    (∃ p ∈ pats, «matches» Γ p ty v = true) ↔
      ∃ l ∈ leavesAll pats, «matches» Γ l ty v = true := by
  rw [← matchesAny_iff_leaves]
  induction pats with
  | nil => simp [matchesAny]
  | cons p pats ih =>
    rw [matchesAny, Bool.or_eq_true, ← ih]
    simp only [List.mem_cons, or_and_right, exists_or, exists_eq_left]

/-! ## Enums -/

/-- The pattern names the variant. -/
def NamesVariant (name : String) : Pattern → Prop
  | .ident n _ _ => n = name
  | .enum _ variant _ _ => variant = name
  | _ => False

/-- The pattern matches every value of a type with these variants. -/
def IsCatchall (names : List String) : Pattern → Prop
  | .wildcard _ => True
  | .ident name _ _ => name ∉ names
  | _ => False

mutual

theorem collectVariantCoverage_iff (names : List String) (p : Pattern) (c : Coverage) :
    ((collectVariantCoverage names p c).hasCatchall = true ↔
        c.hasCatchall = true ∨ ∃ l ∈ leaves p, IsCatchall names l) ∧
      ∀ name ∈ names, name ∈ (collectVariantCoverage names p c).covered ↔
        name ∈ c.covered ∨ ∃ l ∈ leaves p, NamesVariant name l := by
  match p with
  | .or ps _ =>
    rw [collectVariantCoverage, leaves]
    exact collectAll_iff names ps c
  | .wildcard _ => simp [collectVariantCoverage, leaves, IsCatchall, NamesVariant]
  | .enum _ variant _ _ =>
    refine ⟨by simp [collectVariantCoverage, leaves, IsCatchall], fun name hname => ?_⟩
    simp only [collectVariantCoverage, leaves, List.mem_cons, List.not_mem_nil, or_false,
      exists_eq_left, NamesVariant]
    rw [or_comm, eq_comm]
  | .literal _ _ | .tuple _ _ | .struct _ _ _ =>
    simp [collectVariantCoverage, leaves, IsCatchall, NamesVariant]
  | .ident n _ _ =>
    rw [collectVariantCoverage]
    by_cases hn : n ∈ names
    · rw [if_pos hn]
      refine ⟨by simp [leaves, IsCatchall, hn], fun name hname => ?_⟩
      simp only [leaves, List.mem_cons, List.not_mem_nil, or_false, exists_eq_left, NamesVariant]
      rw [or_comm, eq_comm]
    · rw [if_neg hn]
      refine ⟨by simp [leaves, IsCatchall, hn], fun name hname => ?_⟩
      have hne : n ≠ name := fun heq => hn (heq ▸ hname)
      simp [leaves, NamesVariant, hne]

theorem collectAll_iff (names : List String) (ps : List Pattern) (c : Coverage) :
    ((collectAll names ps c).hasCatchall = true ↔
        c.hasCatchall = true ∨ ∃ l ∈ leavesAll ps, IsCatchall names l) ∧
      ∀ name ∈ names, name ∈ (collectAll names ps c).covered ↔
        name ∈ c.covered ∨ ∃ l ∈ leavesAll ps, NamesVariant name l := by
  match ps with
  | [] => simp [collectAll, leavesAll]
  | p :: ps =>
    obtain ⟨hcatch, hcovered⟩ := collectVariantCoverage_iff names p c
    obtain ⟨hcatch', hcovered'⟩ := collectAll_iff names ps (collectVariantCoverage names p c)
    rw [collectAll, leavesAll]
    simp only [List.mem_append, or_and_right, exists_or]
    refine ⟨by rw [hcatch', hcatch, or_assoc], fun name hname => ?_⟩
    rw [hcovered' name hname, hcovered name hname, or_assoc]

end

/-- The check of an enum finds nothing to report: there is a catch-all, or every variant is
named. -/
theorem checkVariants_iff (pats : List Pattern) (names : List String) (span : Span) :
    checkVariantExhaustive pats names span = [] ↔
      (∃ l ∈ leavesAll pats, IsCatchall names l) ∨
        ∀ name ∈ names, ∃ l ∈ leavesAll pats, NamesVariant name l := by
  obtain ⟨hcatch, hcovered⟩ := collectAll_iff names pats ⟨[], false⟩
  simp only [Bool.false_eq_true, List.not_mem_nil, false_or] at hcatch hcovered
  rw [checkVariantExhaustive]
  by_cases h : (collectAll names pats ⟨[], false⟩).hasCatchall = true
  · rw [if_pos h]
    exact ⟨fun _ => .inl (hcatch.mp h), fun _ => rfl⟩
  · have hmissing : (names.filter fun v =>
        v ∉ (collectAll names pats ⟨[], false⟩).covered) = [] ↔
          ∀ name ∈ names, ∃ l ∈ leavesAll pats, NamesVariant name l := by
      rw [List.filter_eq_nil_iff]
      refine forall₂_congr fun name hname => ?_
      rw [decide_eq_true_eq, not_not, hcovered name hname]
    rw [if_neg h, or_iff_right (mt hcatch.mpr h), ← hmissing]
    by_cases hnil : (names.filter fun v =>
        v ∉ (collectAll names pats ⟨[], false⟩).covered) = []
    · simp only [hnil, if_true]
    · simp only [hnil, if_false, List.cons_ne_nil]

variable (Γ) in
/-- One of the patterns for the variant matches the payload. -/
def PayloadMatched (ty : Ty) (pats : List Pattern) (name : String) (payload : List Value) : Prop :=
  ∃ l ∈ leavesAll pats, NamesVariant name l ∧ «matches» Γ l ty (.variant name payload) = true

variable (Γ) in
/-- Each payload of the variant is matched. -/
def PayloadsMatched (ty : Ty) (pats : List Pattern) (name : String) : Prop :=
  ∀ tys payload, (name, tys) ∈ variantsOf Γ ty → HasTypes Γ payload tys →
    PayloadMatched Γ ty pats name payload

variable {ty : Ty}

theorem matches_of_isCatchall {l : Pattern} (h : IsCatchall ((variantsOf Γ ty).map Prod.fst) l)
    (v : Value) : «matches» Γ l ty v = true := by
  match l with
  | .wildcard _ => simp [«matches»]
  | .ident name _ _ =>
    rw [«matches», if_neg h]
  | .literal _ _ | .tuple _ _ | .struct _ _ _ | .enum _ _ _ _ | .or _ _ => exact h.elim

def isOr : Pattern → Bool
  | .or _ _ => true
  | _ => false

mutual

theorem isOr_of_mem_leaves (p : Pattern) {l : Pattern} (h : l ∈ leaves p) : isOr l = false := by
  match p with
  | .or ps _ => exact isOr_of_mem_leavesAll ps h
  | .wildcard _ | .ident _ _ _ | .literal _ _ | .tuple _ _ | .struct _ _ _ | .enum _ _ _ _ =>
    rw [leaves, List.mem_singleton] at h
    rw [h]
    rfl

theorem isOr_of_mem_leavesAll (ps : List Pattern) {l : Pattern} (h : l ∈ leavesAll ps) :
    isOr l = false := by
  match ps with
  | [] => cases h
  | p :: ps =>
    rw [leavesAll, List.mem_append] at h
    exact h.elim (isOr_of_mem_leaves p) (isOr_of_mem_leavesAll ps)

end

variable {name : String}

theorem payloadOf_variant {tag : String} {payload : List Value} :
    ((Value.variant tag payload).payloadOf name).isSome = true ↔ tag = name := by
  rw [Value.payloadOf]
  split <;> simp_all

/-- A leaf that matches a variant is a catch-all or names it. -/
theorem isCatchall_or_namesVariant {l : Pattern} {payload : List Value} (hl : isOr l = false)
    (h : «matches» Γ l ty (.variant name payload) = true) :
    IsCatchall ((variantsOf Γ ty).map Prod.fst) l ∨ NamesVariant name l := by
  match l with
  | .wildcard _ => exact .inl trivial
  | .ident n _ _ =>
    rw [«matches»] at h
    split at h
    · exact .inr (payloadOf_variant.mp h).symm
    · next hn => exact .inl hn
  | .literal e _ =>
    rw [«matches»] at h
    cases e <;> cases h
  | .tuple ps _ =>
    rw [«matches»] at h
    cases ty <;> cases h
  | .struct _ fields _ =>
    rw [«matches»] at h
    cases h
  | .enum _ variant ps _ =>
    rw [«matches»] at h
    by_cases htag : name = variant
    · exact .inr htag.symm
    · rw [Value.payloadOf, if_neg htag] at h
      cases h
  | .or qs span => cases hl

variable (Γ) in
/-- The values of the type are those of its variants. -/
def OnlyVariants (ty : Ty) : Prop :=
  ∀ v, HasType Γ v ty → ∃ name tys fields, v = .variant name fields ∧
    (name, tys) ∈ variantsOf Γ ty ∧ HasTypes Γ fields tys

theorem onlyVariants_option (inner : Ty) : OnlyVariants Γ (.option inner) := by
  intro v hv
  cases hv with
  | variant hname hfields => exact ⟨_, _, _, rfl, hname, hfields⟩
  | other _ h => cases h

theorem onlyVariants_result (ok err : Ty) : OnlyVariants Γ (.result ok err) := by
  intro v hv
  cases hv with
  | variant hname hfields => exact ⟨_, _, _, rfl, hname, hfields⟩
  | other _ h => cases h

theorem onlyVariants_enum (name : String) (generics : List Ty) :
    OnlyVariants Γ (.enum name generics) := by
  intro v hv
  cases hv with
  | variant hname hfields => exact ⟨_, _, _, rfl, hname, hfields⟩
  | other _ h => cases h

/-- What there is to see of a match on an enum: a catch-all, or patterns that match the payloads of
every variant. -/
theorem covered_variants_iff (hty : OnlyVariants Γ ty) (pats : List Pattern) :
    AllMatched Γ ty pats ↔
      (∃ l ∈ leavesAll pats, IsCatchall ((variantsOf Γ ty).map Prod.fst) l) ∨
        ∀ name ∈ (variantsOf Γ ty).map Prod.fst, PayloadsMatched Γ ty pats name := by
  constructor
  · intro hall
    by_cases hcatch : ∃ l ∈ leavesAll pats, IsCatchall ((variantsOf Γ ty).map Prod.fst) l
    · exact .inl hcatch
    · refine .inr fun name _ tys payload htys hpayload => ?_
      obtain ⟨l, hl, hmatch⟩ :=
        (exists_matches_iff pats ty _).mp (hall _ (.variant htys hpayload))
      rcases isCatchall_or_namesVariant (isOr_of_mem_leavesAll pats hl) hmatch with hc | hn
      · exact absurd ⟨l, hl, hc⟩ hcatch
      · exact ⟨l, hl, hn, hmatch⟩
  · rintro (⟨l, hl, hc⟩ | hall) v hv
    · exact (exists_matches_iff pats ty v).mpr ⟨l, hl, matches_of_isCatchall hc v⟩
    · obtain ⟨name, tys, fields, rfl, hname, hfields⟩ := hty v hv
      obtain ⟨l, hl, -, hmatch⟩ :=
        hall name (List.mem_map_of_mem hname) tys fields hname hfields
      exact (exists_matches_iff pats ty _).mpr ⟨l, hl, hmatch⟩

/-! ## Bools -/

/-- The patterns and the direct alternatives of those that are or-patterns. -/
def shallow (pats : List Pattern) : List Pattern :=
  pats.flatMap fun
    | .or ps _ => ps
    | p => [p]

/-- There is a catch-all, or there are both literals. -/
def BoolCovered (ls : List Pattern) : Prop :=
  hasWildcardOrIdent ls = true ∨
    ls.any (isBoolLiteral true) = true ∧ ls.any (isBoolLiteral false) = true

/-- A catch-all among the direct alternatives of an or-pattern. -/
def orCatchall : Pattern → Bool
  | .or ps _ => hasWildcardOrIdent ps
  | _ => false

theorem seenBools_eq (pats : List Pattern) (seenTrue seenFalse : Bool) :
    seenBools pats seenTrue seenFalse =
      if pats.any orCatchall then none
      else some (seenTrue || (shallow pats).any (isBoolLiteral true),
        seenFalse || (shallow pats).any (isBoolLiteral false)) := by
  induction pats generalizing seenTrue seenFalse with
  | nil => simp [seenBools, shallow]
  | cons p pats ih =>
    cases p with
    | or ps span =>
      rw [seenBools, List.any_cons]
      by_cases h : hasWildcardOrIdent ps = true
      · simp [orCatchall, h]
      · rw [if_neg h, ih]
        simp [orCatchall, h, shallow, Bool.or_assoc]
    | wildcard | ident | literal | tuple | struct | enum =>
      simp [seenBools, ih, orCatchall, shallow, Bool.or_assoc]

theorem hasWildcardOrIdent_shallow (pats : List Pattern) :
    hasWildcardOrIdent (shallow pats) = (hasWildcardOrIdent pats || pats.any orCatchall) := by
  induction pats with
  | nil => rfl
  | cons p pats ih =>
    have hcons : hasWildcardOrIdent (p :: pats) = (isWildcardOrIdent p || hasWildcardOrIdent pats) :=
      rfl
    have hshallow : hasWildcardOrIdent (shallow (p :: pats)) =
        ((isWildcardOrIdent p || orCatchall p) || hasWildcardOrIdent (shallow pats)) := by
      cases p <;> simp [shallow, hasWildcardOrIdent, isWildcardOrIdent, orCatchall]
    rw [hshallow, ih, hcons, List.any_cons]
    cases isWildcardOrIdent p <;> cases orCatchall p <;> simp

theorem checkBool_iff (pats : List Pattern) (enumDef : Option EnumDef) (span : Span) :
    checkExhaustive "bool" pats enumDef span = [] ↔ BoolCovered (shallow pats) := by
  have hcheck : checkExhaustive "bool" pats enumDef span =
      if hasWildcardOrIdent pats then [] else checkBool pats span := if_pos rfl
  rw [hcheck, BoolCovered, hasWildcardOrIdent_shallow, checkBool, seenBools_eq]
  by_cases htop : hasWildcardOrIdent pats = true
  · simp [htop]
  · by_cases hor : pats.any orCatchall = true
    · simp [htop, hor]
    · rw [if_neg htop, if_neg hor]
      simp only [Bool.false_or]
      cases (shallow pats).any (isBoolLiteral true) <;>
        cases (shallow pats).any (isBoolLiteral false) <;> simp [htop, hor]

variable {p : Prim}

theorem hasType_prim {v : Value} :
    HasType Γ v (.prim p) ↔ HasPrim v p ∨ ∃ id, v = .other id ∧ isOther (.prim p) := by
  constructor
  · intro h
    cases h with
    | prim h => exact .inl h
    | variant hname => cases hname
    | other id h => exact .inr ⟨id, rfl, h⟩
  · rintro (h | ⟨id, rfl, h⟩)
    · exact .prim h
    · exact .other id h

/-- A leaf matches a scalar as a catch-all or as a literal. -/
theorem matches_prim_iff {v : Value} (hv : HasPrim v p) {l : Pattern} (hl : isOr l = false) :
    «matches» Γ l (.prim p) v = true ↔
      isWildcardOrIdent l = true ∨ ∃ e span, l = .literal e span ∧ literalMatches e v = true := by
  match l with
  | .wildcard _ | .literal e span => simp [«matches», isWildcardOrIdent]
  | .ident name _ _ => simp [«matches», isWildcardOrIdent, variantsOf]
  | .tuple ps _ => simp [«matches», isWildcardOrIdent, tupleParts]
  | .struct _ fields _ => cases hv <;> simp [«matches», isWildcardOrIdent, Value.structFields]
  | .enum _ variant ps _ => cases hv <;> simp [«matches», isWildcardOrIdent, Value.payloadOf]
  | .or _ _ => cases hl

theorem any_isBoolLiteral {ls : List Pattern} {b : Bool} :
    ls.any (isBoolLiteral b) = true ↔
      ∃ l ∈ ls, ∃ e span, l = .literal e span ∧ literalMatches e (.bool b) = true := by
  have hliteral : ∀ l, isBoolLiteral b l = true ↔
      ∃ e span, l = .literal e span ∧ literalMatches e (.bool b) = true := by
    intro l
    constructor
    · intro h
      match l with
      | .literal e span =>
        refine ⟨e, span, rfl, ?_⟩
        cases e with
        | boolLiteral value _ => exact h
        | _ => cases h
      | .wildcard _ | .ident _ _ _ | .tuple _ _ | .struct _ _ _ | .enum _ _ _ _ | .or _ _ => cases h
    · rintro ⟨e, span, rfl, h⟩
      cases e with
      | boolLiteral value _ => exact h
      | _ => cases h
  rw [List.any_eq_true]
  simp only [hliteral]

/-- A scalar is matched by a catch-all or by one of the literals. -/
theorem prim_matched_iff {v : Value} (hv : HasPrim v p) (pats : List Pattern) :
    (∃ q ∈ pats, «matches» Γ q (.prim p) v = true) ↔
      hasWildcardOrIdent (leavesAll pats) = true ∨
        ∃ l ∈ leavesAll pats, ∃ e span, l = .literal e span ∧ literalMatches e v = true := by
  rw [exists_matches_iff, hasWildcardOrIdent, List.any_eq_true, ← exists_or]
  refine exists_congr fun l => ?_
  rw [← and_or_left]
  refine and_congr_right fun hl => matches_prim_iff hv (isOr_of_mem_leavesAll pats hl)

theorem covered_bool_iff (pats : List Pattern) :
    AllMatched Γ (.prim .bool) pats ↔ BoolCovered (leavesAll pats) := by
  rw [BoolCovered, any_isBoolLiteral, any_isBoolLiteral]
  constructor
  · intro h
    have htrue := (prim_matched_iff (.bool true) pats).mp (h _ (.prim (.bool true)))
    have hfalse := (prim_matched_iff (.bool false) pats).mp (h _ (.prim (.bool false)))
    rw [or_and_left]
    exact ⟨htrue, hfalse⟩
  · intro h v hv
    rcases hasType_prim.mp hv with hprim | ⟨_, _, hother⟩
    · cases hprim with
      | bool b =>
        rw [prim_matched_iff (.bool b)]
        cases b with
        | true => exact h.imp_right And.left
        | false => exact h.imp_right And.right
      | int hp => cases hp
    · rcases hother with h | h | h | h <;> cases h

/-! ## Scalars -/

/-- Every value of the type is among the literals. -/
def LiteralsCover (p : Prim) (ls : List Pattern) : Prop :=
  ∀ v, HasPrim v p → ∃ l ∈ ls, ∃ e span, l = .literal e span ∧ literalMatches e v = true

theorem covered_scalar_iff (hp : scalarName p = some name) (pats : List Pattern) :
    AllMatched Γ (.prim p) pats ↔
      hasWildcardOrIdent (leavesAll pats) = true ∨ LiteralsCover p (leavesAll pats) := by
  constructor
  · intro h
    by_cases hcatch : hasWildcardOrIdent (leavesAll pats) = true
    · exact .inl hcatch
    · exact .inr fun v hv =>
        ((prim_matched_iff hv pats).mp (h v (.prim hv))).resolve_left hcatch
  · rintro h v hv
    rcases hasType_prim.mp hv with hprim | ⟨_, _, hother⟩
    · rw [prim_matched_iff hprim]
      exact h.imp_right fun hall => hall v hprim
    · rcases hother with rfl | rfl | rfl | rfl <;> cases hp

theorem scalarName_ne (hp : scalarName p = some name) :
    name ≠ "bool" ∧ name ≠ "Option" ∧ name ≠ "Result" := by
  cases p <;> cases hp <;> decide

variable {pats : List Pattern}

theorem checkScalar_iff (hp : scalarName p = some name) (hpats : ∀ q ∈ pats, ofType Γ q (.prim p))
    (span : Span) : checkExhaustive name pats none span = [] ↔ hasWildcardOrIdent pats = true := by
  obtain ⟨hbool, hoption, hresult⟩ := scalarName_ne hp
  have hstruct : pats.any isIrrefutableStructPattern = false := by
    rw [List.any_eq_false]
    intro q hq hirr
    have hty := hpats q hq
    match q with
    | .struct _ _ _ =>
      rw [ofType] at hty
      obtain ⟨_, heq, -⟩ := hty
      cases heq
    | .wildcard _ | .ident _ _ _ | .literal _ _ | .tuple _ _ | .enum _ _ _ _ | .or _ _ => cases hirr
  have hcheck : checkExhaustive name pats none span =
      if hasWildcardOrIdent pats then [] else checkRequiresWildcard name span := by
    rw [checkExhaustive.eq_def, if_neg hbool, if_neg hoption, if_neg hresult]
    simp only [hstruct, Bool.false_eq_true, if_false]
  rw [hcheck]
  split
  · next h => exact ⟨fun _ => h, fun _ => rfl⟩
  · next h => exact ⟨fun hnil => absurd hnil (List.cons_ne_nil _ _), fun hc => absurd hc h⟩

/-! ## When the check is right -/

/-- One of the patterns names the variant. -/
def Named (pats : List Pattern) (name : String) : Prop :=
  ∃ l ∈ leavesAll pats, NamesVariant name l

variable (Γ) in
/-- The variant has a value. -/
def HasPayload (ty : Ty) (name : String) : Prop :=
  ∃ tys payload, (name, tys) ∈ variantsOf Γ ty ∧ HasTypes Γ payload tys

variable (Γ) in
/-- The check of a type of variants is right: there is a catch-all, or a variant that has a value
and is not named, or the patterns of the variants that are named match all their payloads (and then
every variant is named, as it is where all have values). -/
def RightForVariants (ty : Ty) (pats : List Pattern) : Prop :=
  (∃ l ∈ leavesAll pats, IsCatchall ((variantsOf Γ ty).map Prod.fst) l) ∨
    (∃ name ∈ (variantsOf Γ ty).map Prod.fst, ¬ Named pats name ∧ HasPayload Γ ty name) ∨
    ((∀ name ∈ (variantsOf Γ ty).map Prod.fst,
        Named pats name → PayloadsMatched Γ ty pats name) ↔
      ∀ name ∈ (variantsOf Γ ty).map Prod.fst, Named pats name)

/-- The payloads of a variant that is not named are matched exactly if it has none. -/
theorem payloadsMatched_of_not_named (h : ¬ Named pats name) :
    PayloadsMatched Γ ty pats name ↔ ¬ HasPayload Γ ty name := by
  constructor
  · rintro hmatched ⟨tys, payload, htys, hpayload⟩
    obtain ⟨l, hl, hn, -⟩ := hmatched tys payload htys hpayload
    exact h ⟨l, hl, hn⟩
  · intro hnone tys payload htys hpayload
    exact absurd ⟨tys, payload, htys, hpayload⟩ hnone

/-- What the check does not look at makes no difference. -/
def RightFor : (S : Subject Γ) → List Pattern → Prop
  | .bool, pats =>
    -- no or-pattern inside an or-pattern is needed
    BoolCovered (leavesAll pats) → BoolCovered (shallow pats)
  | .scalar p _ _, pats =>
    -- no catch-all stands in an or-pattern alone, and the literals are not all there are
    hasWildcardOrIdent (leavesAll pats) = true ∨ LiteralsCover p (leavesAll pats) →
      hasWildcardOrIdent pats = true
  | .option inner, pats => RightForVariants Γ (.option inner) pats
  | .result ok err, pats => RightForVariants Γ (.result ok err) pats
  | .enum d generics _, pats => RightForVariants Γ (.enum d.name generics) pats

variable {q : Pattern}

theorem leaf_of_mem (hq : q ∈ pats) (hor : isOr q = false) : q ∈ leavesAll pats := by
  induction pats with
  | nil => cases hq
  | cons p pats ih =>
    rw [leavesAll, List.mem_append]
    rcases List.mem_cons.mp hq with rfl | hq
    · refine .inl ?_
      match q with
      | .or _ _ => cases hor
      | .wildcard _ | .ident _ _ _ | .literal _ _ | .tuple _ _ | .struct _ _ _ | .enum _ _ _ _ =>
        exact List.mem_singleton.mpr rfl
    · exact .inr (ih hq)

theorem mem_leavesAll_of_mem_shallow (hq : q ∈ shallow pats) (hor : isOr q = false) :
    q ∈ leavesAll pats := by
  induction pats with
  | nil => cases hq
  | cons p pats ih =>
    rw [leavesAll, List.mem_append]
    rw [shallow, List.flatMap_cons, List.mem_append] at hq
    rcases hq with hq | hq
    · refine .inl ?_
      match p with
      | .or ps _ => exact leaf_of_mem hq hor
      | .wildcard _ | .ident _ _ _ | .literal _ _ | .tuple _ _ | .struct _ _ _ | .enum _ _ _ _ =>
        exact hq
    · exact .inr (ih hq)

theorem isOr_of_isWildcardOrIdent (h : isWildcardOrIdent q = true) : isOr q = false := by
  cases q <;> first | rfl | cases h

theorem isOr_of_isBoolLiteral {b : Bool} (h : isBoolLiteral b q = true) : isOr q = false := by
  cases q <;> first | rfl | cases h

theorem BoolCovered.leaves (h : BoolCovered (shallow pats)) : BoolCovered (leavesAll pats) := by
  have hmono : ∀ f : Pattern → Bool, (∀ q, f q = true → isOr q = false) →
      (shallow pats).any f = true → (leavesAll pats).any f = true := by
    intro f hf hany
    obtain ⟨q, hq, hfq⟩ := List.any_eq_true.mp hany
    exact List.any_eq_true.mpr ⟨q, mem_leavesAll_of_mem_shallow hq (hf q hfq), hfq⟩
  exact h.imp (hmono _ fun _ => isOr_of_isWildcardOrIdent)
    (And.imp (hmono _ fun _ => isOr_of_isBoolLiteral) (hmono _ fun _ => isOr_of_isBoolLiteral))

theorem hasWildcardOrIdent_leavesAll (h : hasWildcardOrIdent pats = true) :
    hasWildcardOrIdent (leavesAll pats) = true := by
  obtain ⟨q, hq, hqc⟩ := List.any_eq_true.mp h
  exact List.any_eq_true.mpr ⟨q, leaf_of_mem hq (isOr_of_isWildcardOrIdent hqc), hqc⟩

theorem correct_variants_iff (hty : OnlyVariants Γ ty) (pats : List Pattern) (span : Span) :
    (checkVariantExhaustive pats ((variantsOf Γ ty).map Prod.fst) span = [] ↔
        AllMatched Γ ty pats) ↔ RightForVariants Γ ty pats := by
  rw [checkVariants_iff, covered_variants_iff hty, RightForVariants]
  by_cases hcatch : ∃ l ∈ leavesAll pats, IsCatchall ((variantsOf Γ ty).map Prod.fst) l
  · simp only [hcatch, true_or]
  simp only [hcatch, false_or]
  by_cases hunnamed : ∃ name ∈ (variantsOf Γ ty).map Prod.fst,
      ¬ Named pats name ∧ HasPayload Γ ty name
  · -- The variant is missing, and its value is not matched.
    obtain ⟨name, hname, hnot, hpayload⟩ := hunnamed
    refine ⟨fun _ => .inl ⟨name, hname, hnot, hpayload⟩, fun _ => ?_⟩
    exact ⟨fun hall => absurd (hall name hname) hnot,
      fun hall => absurd hpayload ((payloadsMatched_of_not_named hnot).mp (hall name hname))⟩
  · have hmatched : (∀ name ∈ (variantsOf Γ ty).map Prod.fst,
          PayloadsMatched Γ ty pats name) ↔
        ∀ name ∈ (variantsOf Γ ty).map Prod.fst,
          Named pats name → PayloadsMatched Γ ty pats name := by
      refine ⟨fun hall name hname _ => hall name hname, fun hall name hname => ?_⟩
      by_cases hnamed : Named pats name
      · exact hall name hname hnamed
      · exact (payloadsMatched_of_not_named hnamed).mpr fun hpayload =>
          hunnamed ⟨name, hname, hnamed, hpayload⟩
    rw [or_iff_right hunnamed, hmatched]
    exact Iff.comm

/-- `None` and `Some(1)`, for an optional integer. -/
def someOne : Patterns ⟨fun _ _ => none, fun _ _ => none⟩ (.option (.prim .i64)) :=
  ⟨[.ident "None" false ⟨0, 0, 0⟩,
    .enum "" "Some" [.literal (.intLiteral 1 ⟨0, 0, 0⟩) ⟨0, 0, 0⟩] ⟨0, 0, 0⟩], by
    intro p hp
    rcases List.mem_cons.mp hp with rfl | hp
    · trivial
    · cases List.mem_singleton.mp hp
      rw [ofType]
      refine ⟨List.mem_cons_of_mem _ List.mem_cons_self, Nat.le_refl 1, ?_⟩
      rw [payloadTypes]
      show allOfType _ _ [.prim .i64]
      rw [allOfType]
      refine ⟨?_, trivial⟩
      rw [ofType]
      exact ⟨.i64, _, _, rfl, rfl, by decide, by decide⟩⟩

end Kryos.Types.Exhaustive

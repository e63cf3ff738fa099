import Kryos.Driver.Occurrences
import Kryos.Lib.Reach

/-!
# Selective imports

What `resolve_imports` merges for a module of which names were selected. Everything that is not a
function is taken. A function is taken if it was selected, or if its name was collected from a
declaration that is taken. A function that was taken but not selected gets a private name.

Both walks must meet every occurrence of a function for this to keep the meaning of the program, and
they do not. `merge_preserves_binding_iff` says for which modules it does.
-/

namespace Kryos.Driver

open Relation Kryos.Ast

def functionNames (decls : List Decl) : List String := decls.filterMap Decl.functionName

/-- The function of a name. A later declaration replaces an earlier one. -/
def fnByName (decls : List Decl) (name : String) : Option Decl :=
  decls.reverse.find? fun d => d.functionName = some name

/-- The names that a function leads to. -/
def references (decls : List Decl) (name : String) : Finset String :=
  match fnByName decls name with
  | some d => (collectIdentsInDecl d).toFinset
  | none => ∅

/-- Declarations that are taken whatever was selected. -/
def isAlwaysTaken (d : Decl) : Bool := d.functionName.isNone && !d.isImport

def seeds (decls : List Decl) (selected : Finset String) : Finset String :=
  selected ∪ ((decls.filter isAlwaysTaken).flatMap collectIdentsInDecl).toFinset

def needed (decls : List Decl) (selected : Finset String) : Finset String :=
  Reach.reach (references decls) (functionNames decls).length (seeds decls selected)

def mangledName (tag name : String) : String := "__kry_pm_" ++ tag ++ "_" ++ name

def renameMap (decls : List Decl) (selected : Finset String) (tag : String) : Renaming :=
  ((functionNames decls).filter fun n =>
    n ∈ needed decls selected ∧ n ∉ selected ∧ n ≠ "main").map fun n => (n, mangledName tag n)

/-- An imported `main` is an entry point, not an export. -/
def isTaken (decls : List Decl) (selected : Finset String) (d : Decl) : Bool :=
  match d.functionName with
  | some name => name ≠ "main" && name ∈ needed decls selected
  | none => !d.isImport

def mergeDecl (map : Renaming) (d : Decl) : Decl :=
  if map.isEmpty then d else renameIdentsInDecl map d

def selectDecls (decls : List Decl) (selected : Finset String) (tag : String) : List Decl :=
  (decls.filter (isTaken decls selected)).map (mergeDecl (renameMap decls selected tag))

/-! ### Duplicates -/

def declKindName : Decl → String
  | .function .. => "function"
  | .struct .. => "struct"
  | .enum .. => "enum"
  | .trait .. => "trait"
  | .typeAlias .. => "type alias"
  | .actor .. => "actor"
  | .const .. => "constant"
  | .importDecl .. => "import"
  | .externBlock .. => "extern block"
  | .impl .. => "impl block"

def declNameOf : Decl → Option String
  | .function name .. | .struct name .. | .enum name .. | .trait name .. | .typeAlias name ..
  | .actor name .. | .const name .. => some name
  | _ => none

def isConst : Decl → Bool
  | .const .. => true
  | _ => false

structure DuplicateError where
  kind : String
  name : String
deriving DecidableEq

/-- The names declared twice. Constants may be. -/
def duplicates (seen : List (String × Decl)) : List Decl → List DuplicateError
  | [] => []
  | d :: ds =>
    match declNameOf d with
    | none => duplicates seen ds
    | some name =>
      match seen.lookup name with
      | some prev =>
        if isConst d && isConst prev then duplicates seen ds
        else ⟨declKindName d, name⟩ :: duplicates seen ds
      | none => duplicates ((name, d) :: seen) ds

/-- Merge a module into the declarations resolved so far. -/
def mergeSelected (resolved decls : List Decl) (selected : Finset String) (tag : String) :
    Except (List DuplicateError) (List Decl) :=
  let merged := resolved ++ selectDecls decls selected tag
  match duplicates [] merged with
  | [] => .ok merged
  | errors => .error errors

theorem functions_of_duplicates_eq_nil : ∀ {ds : List Decl} {seen : List (String × Decl)},
    duplicates seen ds = [] →
      (∀ n ∈ functionNames ds, seen.lookup n = none) ∧ (functionNames ds).Nodup
  | [], seen, _ => ⟨nofun, List.nodup_nil⟩
  | d :: ds, seen, h => by
    have hskip : d.functionName = none → duplicates seen ds = [] →
        (∀ n ∈ functionNames (d :: ds), seen.lookup n = none) ∧ (functionNames (d :: ds)).Nodup := by
      intro hd h
      rw [functionNames, List.filterMap_cons_none hd]
      exact functions_of_duplicates_eq_nil h
    rw [duplicates] at h
    split at h
    · rename_i hname
      refine hskip ?_ h
      cases d with
      | function => cases hname
      | _ => rfl
    · rename_i name hname
      split at h
      · split at h
        · rename_i hconst
          refine hskip ?_ h
          cases d with
          | function => cases hconst
          | _ => rfl
        · cases h
      · rename_i hseen
        obtain ⟨hlater, hnodup⟩ := functions_of_duplicates_eq_nil h
        have hne : ∀ n ∈ functionNames ds, n ≠ name ∧ seen.lookup n = none := by
          intro n hn
          have hlookup := hlater n hn
          rw [List.lookup_cons] at hlookup
          split at hlookup
          · cases hlookup
          · rename_i hbeq
            exact ⟨fun heq => by simp [heq] at hbeq, hlookup⟩
        cases d with
        | function name' =>
          obtain rfl : name' = name := Option.some.inj hname
          show (∀ n ∈ name' :: functionNames ds, _) ∧ (name' :: functionNames ds).Nodup
          refine ⟨List.forall_mem_cons.mpr ⟨hseen, fun n hn => (hne n hn).2⟩, ?_⟩
          exact List.nodup_cons.mpr ⟨fun hmem => (hne _ hmem).1 rfl, hnodup⟩
        | _ =>
          show (∀ n ∈ functionNames ds, _) ∧ (functionNames ds).Nodup
          exact ⟨fun n hn => (hne n hn).2, hnodup⟩

variable {d : Decl}

theorem eq_of_functionName_eq {ds : List Decl} (h : (functionNames ds).Nodup) {d' : Decl}
    {n : String} (hd : d ∈ ds) (hd' : d' ∈ ds) (hn : d.functionName = some n)
    (hn' : d'.functionName = some n) : d = d' := by
  induction ds with
  | nil => cases hd
  | cons x ds ih =>
    have hmem : ∀ y ∈ ds, y.functionName = some n → n ∈ functionNames ds :=
      fun y hy hyn => List.mem_filterMap.mpr ⟨y, hy, hyn⟩
    have htail : (functionNames ds).Nodup := by
      rw [functionNames, List.filterMap_cons] at h
      split at h
      · exact h
      · exact h.of_cons
    have hfirst : x.functionName = some n → n ∉ functionNames ds := by
      intro hx
      rw [functionNames, List.filterMap_cons_some hx] at h
      exact (List.nodup_cons.mp h).1
    rcases List.mem_cons.mp hd with rfl | hds
    · rcases List.mem_cons.mp hd' with rfl | hds'
      · rfl
      · exact absurd (hmem d' hds' hn') (hfirst hn)
    · rcases List.mem_cons.mp hd' with rfl | hds'
      · exact absurd (hmem d hds hn) (hfirst hn')
      · exact ih htail hds hds'

/-! ### What is taken -/

variable {decls : List Decl} {selected : Finset String} {tag : String}

/-- A function mentions the name. -/
def Mentions (decls : List Decl) (a b : String) : Prop :=
  ∃ d, fnByName decls a = some d ∧ b ∈ collectIdentsInDecl d

/-- The name is reached from the selection, and from what is always taken. -/
def Pulled (decls : List Decl) (selected : Finset String) (name : String) : Prop :=
  ∃ start, (start ∈ selected ∨ ∃ d ∈ decls, isAlwaysTaken d = true ∧ start ∈ collectIdentsInDecl d) ∧
    ReflTransGen (Mentions decls) start name

theorem mem_references {a b : String} : b ∈ references decls a ↔ Mentions decls a b := by
  rw [references, Mentions]
  cases fnByName decls a with
  | none => simp
  | some d => simp

variable {name : String}

theorem functionName_of_fnByName (h : fnByName decls name = some d) :
    d ∈ decls ∧ d.functionName = some name := by
  refine ⟨List.mem_reverse.mp (List.mem_of_find?_eq_some h), ?_⟩
  simpa using List.find?_some h

theorem mem_needed_iff : name ∈ needed decls selected ↔ Pulled decls selected name := by
  have hdom : ∀ v, v ∉ (functionNames decls).toFinset → references decls v = ∅ := by
    intro v hv
    rw [references]
    cases hd : fnByName decls v with
    | none => rfl
    | some d =>
      obtain ⟨hmem, hname⟩ := functionName_of_fnByName hd
      exact absurd (List.mem_toFinset.mpr (List.mem_filterMap.mpr ⟨d, hmem, hname⟩)) hv
  rw [needed, Reach.mem_reach_iff hdom (List.toFinset_card_le _), Pulled]
  have hrel : (fun a b => b ∈ references decls a) = Mentions decls := by
    funext a b
    exact propext mem_references
  rw [hrel]
  refine exists_congr fun start => and_congr_left fun _ => ?_
  simp only [seeds, Finset.mem_union, List.mem_toFinset, List.mem_flatMap, List.mem_filter,
    and_assoc]

/-- The declaration is merged. -/
def Taken (decls : List Decl) (selected : Finset String) (d : Decl) : Prop :=
  d ∈ decls ∧ d.isImport = false ∧
    ∀ name, d.functionName = some name → name ≠ "main" ∧ Pulled decls selected name

theorem isImport_of_functionName (h : d.functionName = some name) : d.isImport = false := by
  cases d with
  | function => rfl
  | _ => cases h

theorem mem_taken_iff : d ∈ decls.filter (isTaken decls selected) ↔ Taken decls selected d := by
  rw [List.mem_filter, Taken, isTaken]
  refine and_congr_right fun _ => ?_
  cases hd : d.functionName with
  | none => simp
  | some name => simp [isImport_of_functionName hd, mem_needed_iff]

/-- The function is merged under a private name. -/
def Renamed (decls : List Decl) (selected : Finset String) (name : String) : Prop :=
  name ∈ functionNames decls ∧ Pulled decls selected name ∧ name ∉ selected ∧ name ≠ "main"

theorem lookup_mangled (l : List String) (name : String) :
    (l.map fun n => (n, mangledName tag n)).lookup name =
      if name ∈ l then some (mangledName tag name) else none := by
  induction l with
  | nil => rfl
  | cons x l ih =>
    rw [List.map_cons, List.lookup_cons, ih]
    by_cases hx : name = x
    · subst hx
      simp
    · have hbeq : (name == x) = false := beq_eq_false_iff_ne.mpr hx
      simp only [hbeq, List.mem_cons, hx, false_or]

theorem mem_renamed_iff :
    (name ∈ (functionNames decls).filter fun n =>
      n ∈ needed decls selected ∧ n ∉ selected ∧ n ≠ "main") ↔ Renamed decls selected name := by
  rw [List.mem_filter, decide_eq_true_eq, mem_needed_iff, Renamed]

theorem apply_of_renamed (h : Renamed decls selected name) :
    (renameMap decls selected tag).apply name = mangledName tag name := by
  rw [Renaming.apply, renameMap, lookup_mangled, if_pos (mem_renamed_iff.mpr h), Option.getD_some]

theorem apply_of_not_renamed (h : ¬ Renamed decls selected name) :
    (renameMap decls selected tag).apply name = name := by
  rw [Renaming.apply, renameMap, lookup_mangled, if_neg (fun hm => h (mem_renamed_iff.mp hm)),
    Option.getD_none]

theorem mangledName_ne (name : String) : mangledName tag name ≠ name := by
  intro h
  have hlen := congrArg String.length h
  rw [mangledName, String.length_append, String.length_append, String.length_append] at hlen
  have hpre : ("__kry_pm_" : String).length = 9 := rfl
  omega

theorem functionName_mergeDecl (map : Renaming) (d : Decl) :
    (mergeDecl map d).functionName = d.functionName.map map.apply := by
  rw [mergeDecl]
  split
  · rename_i hnil
    obtain rfl := List.isEmpty_iff.mp hnil
    cases d with
    | function => rfl
    | _ => rfl
  · cases d with
    | function => rfl
    | _ => rfl

theorem occursDecl_mergeDecl (map : Renaming) (d : Decl) :
    occursDecl (mergeDecl map d) = (occursDecl d).map (Occurrence.rename map) := by
  rw [mergeDecl]
  split
  · rename_i hnil
    obtain rfl := List.isEmpty_iff.mp hnil
    have hid : ∀ o : Occurrence, o.rename [] = o := by
      intro o
      rw [Occurrence.rename]
      split
      · rfl
      · rfl
    rw [List.map_congr_left fun o _ => hid o, List.map_id']
  · exact occursDecl_rename d

/-- The merge was accepted, so no two functions that are taken have the same name. -/
theorem fnByName_of_taken {resolved merged : List Decl}
    (h : mergeSelected resolved decls selected tag = .ok merged) (hd : Taken decls selected d)
    (hname : d.functionName = some name) : fnByName decls name = some d := by
  have hnodup : (functionNames (decls.filter (isTaken decls selected))).Nodup := by
    have hnil : duplicates [] (resolved ++ selectDecls decls selected tag) = [] := by
      rw [mergeSelected] at h
      split at h
      · rename_i hnil
        exact hnil
      · cases h
    have hall := (functions_of_duplicates_eq_nil hnil).2
    rw [functionNames, List.filterMap_append] at hall
    have hselect := hall.of_append_right
    rw [selectDecls, List.filterMap_map] at hselect
    have hnames : (Decl.functionName ∘ mergeDecl (renameMap decls selected tag)) =
        fun d => d.functionName.map (renameMap decls selected tag).apply := by
      funext d
      exact functionName_mergeDecl _ d
    rw [hnames, ← List.map_filterMap] at hselect
    exact hselect.of_map _
  have hfound : (decls.reverse.find? fun d => d.functionName = some name).isSome := by
    rw [List.find?_isSome]
    exact ⟨d, List.mem_reverse.mpr hd.1, by simpa using hname⟩
  obtain ⟨d', hd'⟩ := Option.isSome_iff_exists.mp hfound
  obtain ⟨hmem, hname'⟩ := functionName_of_fnByName hd'
  have htaken : Taken decls selected d' := by
    refine ⟨hmem, isImport_of_functionName hname', fun n hn => ?_⟩
    obtain rfl := Option.some.inj (hname'.symm.trans hn)
    exact hd.2.2 _ hname
  rw [fnByName, hd', eq_of_functionName_eq hnodup (mem_taken_iff.mpr htaken) (mem_taken_iff.mpr hd)
    hname' hname]

/-! ### Binding -/

/-- An occurrence before the merge and the same one after it. A local is still the same local; any
other name is the name under which its declaration was merged, and no local has captured it. -/
structure SameBinding (map : Renaming) (o o' : Occurrence) : Prop where
  scope : o'.scope = o.scope
  bound : o.IsLocal → o'.name = o.name
  free : ¬ o.IsLocal → o'.name = map.apply o.name ∧ ¬ o'.IsLocal

structure PreservesBinding (decls : List Decl) (selected : Finset String) (tag : String) : Prop where
  /-- Every function of the module that a merged declaration mentions is merged. -/
  closed : ∀ d ∈ decls.filter (isTaken decls selected), ∀ o ∈ occursDecl d, ¬ o.IsLocal →
    ∀ f ∈ decls, f.functionName = some o.name → f ∈ decls.filter (isTaken decls selected)
  binding : ∀ d ∈ decls.filter (isTaken decls selected),
    List.Forall₂ (SameBinding (renameMap decls selected tag)) (occursDecl d)
      (occursDecl (mergeDecl (renameMap decls selected tag) d))

/-- What an occurrence of a function of the module must be like. -/
structure Transparent (decls : List Decl) (selected : Finset String) (tag : String)
    (o : Occurrence) : Prop where
  /-- It does not stand for the entry point, which is never merged. -/
  main : ¬ o.IsLocal → o.name ≠ "main"
  /-- In an `unsafe` block, a default value, a pattern or an actor it was selected. -/
  skipped : ¬ o.IsLocal → o.visited = false → o.name ∈ selected
  /-- If it is renamed, it does not stand for the variable of a `select` branch, and no local has
  its private name. -/
  renamed : o.visited = true → o.name ∉ o.scope.known → o.name ∉ selected → o.name ≠ "main" →
    o.name ∉ o.scope.select ∧ mangledName tag o.name ∉ o.scope.known ∧
      mangledName tag o.name ∉ o.scope.select

/-- What a merged declaration mentions in a visited place is reached. -/
theorem pulled_of_visited {resolved merged : List Decl}
    (h : mergeSelected resolved decls selected tag = .ok merged) {o : Occurrence}
    (hd : Taken decls selected d) (ho : o ∈ occursDecl d) (hv : o.visited = true) :
    Pulled decls selected o.name := by
  have hcollect := visited_mem_collect ho hv
  cases hname : d.functionName with
  | none =>
    refine ⟨o.name, .inr ⟨d, hd.1, ?_, hcollect⟩, .refl⟩
    rw [isAlwaysTaken, hname, hd.2.1]
    rfl
  | some name =>
    obtain ⟨start, hstart, hreach⟩ := (hd.2.2 name hname).2
    exact ⟨start, hstart, hreach.tail ⟨d, fnByName_of_taken h hd hname, hcollect⟩⟩

/-- One occurrence in a merged declaration. -/
theorem sameBinding_rename {o : Occurrence}
    (ht : o.name ∈ functionNames decls → Transparent decls selected tag o) :
    SameBinding (renameMap decls selected tag) o (o.rename (renameMap decls selected tag)) := by
  by_cases hr : o.visited = true ∧ o.name ∉ o.scope.known
  · have hrename : o.rename (renameMap decls selected tag) =
        { o with name := (renameMap decls selected tag).apply o.name } := if_pos hr
    by_cases hren : Renamed decls selected o.name
    · obtain ⟨hselect, hknown', hselect'⟩ :=
        (ht hren.1).renamed hr.1 hr.2 hren.2.2.1 hren.2.2.2
      have hfree : ¬ o.IsLocal := fun hl => hl.elim hr.2 hselect
      rw [hrename]
      refine ⟨rfl, fun hl => absurd hl hfree, fun _ => ⟨rfl, ?_⟩⟩
      rw [Occurrence.IsLocal, apply_of_renamed hren]
      exact fun hl => hl.elim hknown' hselect'
    · rw [hrename, apply_of_not_renamed hren]
      exact ⟨rfl, fun _ => rfl, fun hl => ⟨(apply_of_not_renamed hren).symm, hl⟩⟩
  · have hrename : o.rename (renameMap decls selected tag) = o := if_neg hr
    rw [hrename]
    refine ⟨rfl, fun _ => rfl, fun hl => ⟨?_, hl⟩⟩
    -- A free occurrence that stays was not visited, so it was selected.
    have hskipped : o.visited = false := by
      rw [← Bool.not_eq_true]
      exact fun hv => hr ⟨hv, fun hk => hl (.inl hk)⟩
    refine (apply_of_not_renamed fun hren => ?_).symm
    exact hren.2.2.1 ((ht hren.1).skipped hl hskipped)

/-- `fn name() { body }` -/
def plainFunction (name : String) (body : List Stmt) : Decl :=
  .function name [] [] none (some (.mk body ⟨0, 0, 0⟩)) true false [] [] ⟨0, 0, 0⟩

/-- `name();` -/
def callStmt (name : String) : Stmt :=
  .exprStmt (.fnCall (.identifier name ⟨0, 0, 0⟩) [] ⟨0, 0, 0⟩) ⟨0, 0, 0⟩

/-- `fn run() { helper(); }` and `fn helper() {}` -/
def plainModule : List Decl := [plainFunction "run" [callStmt "helper"], plainFunction "helper" []]

/-- `fn run() { unsafe { helper(); } }` and `fn helper() {}` -/
def unsafeModule : List Decl :=
  [plainFunction "run" [.exprStmt (.unsafeBlock (.mk [callStmt "helper"] ⟨0, 0, 0⟩) ⟨0, 0, 0⟩)
    ⟨0, 0, 0⟩], plainFunction "helper" []]

end Kryos.Driver

import Kryos.Driver.SelectImport
import Kryos.Lib.FallibleLoop

/-!
# Resolving imports

`resolve_imports` makes two passes over the modules that a program imports, both depth-first, and
both open a file once. The first collects, for each file, the union of what its importers select.
The second checks what an import selects, and merges the declarations of the file under the names
that the union leaves bare.

A file that an import meets for the second time is skipped by both passes. The first pass has noted
the selection by then. The second pass skips the check along with the rest, so only the import that
comes first at a file is checked: `firstImports` walks the graph the way the second pass does, and
collects these.

Both passes take the number of nested modules as fuel. `resolveImports_ne_outOfFuel` says that one
more than there are files is enough.
-/

namespace Kryos.Driver

open Kryos.Ast

/-! ### Files -/

/-- What the resolver can see of the file system. -/
structure Files (Path : Type) where
  resolveModulePath : List String → Path → Option Path
  canonicalize : Path → Path
  parseModuleFile : Path → Option Module
  /-- the module files there are -/
  all : Finset Path
  mem_all : ∀ {segments importingFile path}, resolveModulePath segments importingFile = some path →
    canonicalize path ∈ all
  /-- Two paths of one file lead to the same text. -/
  same_text : ∀ {path path'}, canonicalize path = canonicalize path' →
    parseModuleFile path = parseModuleFile path'

inductive ImportError where
  | unresolved (moduleName : String)
  | parseErrors (moduleName : String)
  | privateMember (name moduleName : String)
  | noExport (name moduleName : String)
  | duplicate (error : DuplicateError)
  | outOfFuel
deriving DecidableEq

def extractImports (module : Module) : List ImportPath :=
  module.declarations.filterMap fun
    | .importDecl path .. => some path
    | _ => none

def moduleName (path : ImportPath) : String := "::".intercalate path.segments

/-! ### What is selected from a file -/

/-- The selection of all importers of a file; `none` if one of them imports it whole. -/
abbrev Selection := Option (Finset String)

def Selection.add (items : List String) (selection : Selection) : Selection :=
  if items = [] then none else selection.map (· ∪ items.toFinset)

variable {Path : Type} [DecidableEq Path]

abbrev SelectionUnions (Path : Type) := Path → Option Selection

structure Scan (Path : Type) where
  visited : Finset Path
  unions : SelectionUnions Path

/-- One import of the first pass. -/
def scanImport (files : Files Path)
    (recurse : Module → Path → Scan Path → Except (List ImportError) (Scan Path))
    (importingFile : Path) (scan : Scan Path) (i : ImportPath) :
    Except (List ImportError) (Scan Path) :=
  match files.resolveModulePath i.segments importingFile with
  | none => .ok scan -- resolution errors surface in the main pass
  | some modulePath =>
    let canonical := files.canonicalize modulePath
    let entry := (scan.unions canonical).getD (some ∅)
    let unions := Function.update scan.unions canonical (some (entry.add i.items))
    if canonical ∈ scan.visited then .ok { scan with unions }
    else
      let scan := { visited := insert canonical scan.visited, unions }
      match files.parseModuleFile modulePath with
      | none => .ok scan
      | some imported => recurse imported modulePath scan

def collectSelectionUnions (files : Files Path) :
    ℕ → Module → Path → Scan Path → Except (List ImportError) (Scan Path)
  | 0, _, _, _ => .error [.outOfFuel]
  | n + 1, module, importingFile, scan =>
    (extractImports module).foldlM
      (scanImport files (collectSelectionUnions files n) importingFile) scan

/-! ### What a file exports -/

def variantNames : Decl → List String
  | .enum _ _ variants .. => variants.map EnumVariant.name
  | _ => []

def externItems : Decl → List Decl
  | .externBlock _ items .. => items
  | _ => []

/-- The declarations, and the variants of enums. -/
def exported (decls : List Decl) : List String :=
  decls.filterMap declNameOf ++ decls.flatMap variantNames

def externItemNames (decls : List Decl) : List String :=
  decls.flatMap fun d => (externItems d).filterMap declNameOf

def isPrivateName (name : String) : Bool := name.toList.head? = some '_'

/-- What is wrong with selecting this name. -/
def selectionError (decls : List Decl) (moduleName name : String) : Option ImportError :=
  if isPrivateName name = true ∨ name ∈ externItemNames decls then
    some (.privateMember name moduleName)
  else if name ∉ exported decls then some (.noExport name moduleName)
  else none

def missing (decls : List Decl) (i : ImportPath) : List ImportError :=
  i.items.dedup.filterMap (selectionError decls (moduleName i))

/-! ### The second pass -/

/-- A declaration of the merged program. The compiler keeps `decl` only; the file it comes from, and
what it is in there, are recorded for the statements about it. -/
structure Merged (Path : Type) where
  origin : Path
  source : Decl
  decl : Decl

structure Resolution (Path : Type) where
  visited : Finset Path
  resolvedDecls : List (Merged Path)

def effectiveSelected (unions : SelectionUnions Path) (canonical : Path) (i : ImportPath) :
    Selection :=
  (unions canonical).getD (if i.items = [] then none else some i.items.toFinset)

/-- An imported `main` is an entry point, not an export. -/
def isTakenWhole (d : Decl) : Bool := d.functionName ≠ some "main" && !d.isImport

def moduleTag (i : ImportPath) : String := i.segments.getLast?.getD ""

/-- What is merged of a file. -/
def mergedFrom (modulePath : Path) (decls : List Decl) (i : ImportPath) :
    Selection → List (Merged Path)
  | none => (decls.filter isTakenWhole).map fun d => ⟨modulePath, d, d⟩
  | some selected => (decls.filter (isTaken decls selected)).map fun d =>
      ⟨modulePath, d, mergeDecl (renameMap decls selected (moduleTag i)) d⟩

/-- One import of the second pass. -/
def resolveImport (files : Files Path) (unions : SelectionUnions Path)
    (recurse : Module → Path → Resolution Path → Except (List ImportError) (Resolution Path))
    (importingFile : Path) (resolution : Resolution Path) (i : ImportPath) :
    Except (List ImportError) (Resolution Path) :=
  match files.resolveModulePath i.segments importingFile with
  | none => .error [.unresolved (moduleName i)]
  | some modulePath =>
    let canonical := files.canonicalize modulePath
    if canonical ∈ resolution.visited then .ok resolution
    else
      match files.parseModuleFile modulePath with
      | none => .error [.parseErrors (moduleName i)]
      | some imported => do
        let resolution ← recurse imported modulePath
          { resolution with visited := insert canonical resolution.visited }
        match missing imported.declarations i with
        | [] =>
          let selection := effectiveSelected unions canonical i
          return { resolution with
            resolvedDecls := resolution.resolvedDecls ++
              mergedFrom modulePath imported.declarations i selection }
        | errors => throw errors

def checkDuplicates (resolution : Resolution Path) :
    Except (List ImportError) (Resolution Path) :=
  match duplicates [] (resolution.resolvedDecls.map Merged.decl) with
  | [] => .ok resolution
  | errors => .error (errors.map .duplicate)

def resolveImportsInner (files : Files Path) (unions : SelectionUnions Path) :
    ℕ → Module → Path → Resolution Path → Except (List ImportError) (Resolution Path)
  | 0, _, _, _ => .error [.outOfFuel]
  | n + 1, module, importingFile, resolution => do
    let resolution ← (extractImports module).foldlM
      (resolveImport files unions (resolveImportsInner files unions n) importingFile) resolution
    checkDuplicates resolution

def resolveImports (files : Files Path) (module : Module) (importingFile : Path)
    (visited : Finset Path) : Except (List ImportError) (Resolution Path) := do
  let fuel := files.all.card + 1
  let scan ← collectSelectionUnions files fuel module importingFile ⟨∅, fun _ => none⟩
  resolveImportsInner files scan.unions fuel module importingFile ⟨visited, []⟩

/-! ### The graph -/

/-- The modules that a program imports, with the paths they are opened under. -/
inductive InGraph (files : Files Path) (root : Module) (rootPath : Path) : Module → Path → Prop
  | root : InGraph files root rootPath root rootPath
  | imported {module imported : Module} {importingFile modulePath : Path} {i : ImportPath} :
      InGraph files root rootPath module importingFile → i ∈ extractImports module →
      files.resolveModulePath i.segments importingFile = some modulePath →
      files.parseModuleFile modulePath = some imported →
      InGraph files root rootPath imported modulePath

/-- An import declaration, with the file it is in and the file it leads to. -/
structure ImportOf (files : Files Path) (root : Module) (rootPath importingFile : Path)
    (i : ImportPath) (modulePath : Path) : Prop where
  resolves : files.resolveModulePath i.segments importingFile = some modulePath
  declared : ∃ module, InGraph files root rootPath module importingFile ∧ i ∈ extractImports module

structure Walk (Path : Type) where
  visited : Finset Path
  imports : List (Path × ImportPath)

def walkImport (files : Files Path) (recurse : Module → Path → Walk Path → Walk Path)
    (importingFile : Path) (walk : Walk Path) (i : ImportPath) : Walk Path :=
  match files.resolveModulePath i.segments importingFile with
  | none => walk
  | some modulePath =>
    if files.canonicalize modulePath ∈ walk.visited then walk
    else
      match files.parseModuleFile modulePath with
      | none => walk
      | some imported => recurse imported modulePath
          { visited := insert (files.canonicalize modulePath) walk.visited
            imports := (importingFile, i) :: walk.imports }

def walkImports (files : Files Path) : ℕ → Module → Path → Walk Path → Walk Path
  | 0, _, _, walk => walk
  | n + 1, module, importingFile, walk =>
    (extractImports module).foldl (walkImport files (walkImports files n) importingFile) walk

/-- The imports that come first at a file, in depth-first order. -/
def firstImports (files : Files Path) (module : Module) (importingFile : Path)
    (visited : Finset Path) : List (Path × ImportPath) :=
  (walkImports files (files.all.card + 1) module importingFile ⟨visited, []⟩).imports

/-! ### Fuel -/

variable {files : Files Path} {unions : SelectionUnions Path}

/-- How many files have not been opened. -/
def unopened (files : Files Path) (visited : Finset Path) : ℕ := (files.all \ visited).card

theorem unopened_mono {visited visited' : Finset Path} (h : visited ⊆ visited') :
    unopened files visited' ≤ unopened files visited :=
  Finset.card_le_card (Finset.sdiff_subset_sdiff (Finset.Subset.refl _) h)

variable {importingFile : Path}

theorem unopened_insert {segments : List String} {path : Path}
    (h : files.resolveModulePath segments importingFile = some path) {visited : Finset Path}
    (hnew : files.canonicalize path ∉ visited) :
    unopened files (insert (files.canonicalize path) visited) < unopened files visited := by
  rw [unopened, Finset.sdiff_insert]
  exact Finset.card_erase_lt_of_mem (Finset.mem_sdiff.mpr ⟨files.mem_all h, hnew⟩)

theorem collectSelectionUnions_ok (n : ℕ) (module : Module) (importingFile : Path)
    (scan : Scan Path) (hfuel : unopened files scan.visited < n) :
    ∃ scan', collectSelectionUnions files n module importingFile scan = .ok scan' ∧
      scan.visited ⊆ scan'.visited := by
  induction n generalizing module importingFile scan with
  | zero => exact absurd hfuel (Nat.not_lt_zero _)
  | succ n ih =>
    rw [collectSelectionUnions]
    refine List.foldlM_ok_of_step (fun _ (t : Scan Path) => scan.visited ⊆ t.visited)
      (Finset.Subset.refl _) ?_
    intro _ i _ t _ ht
    rw [scanImport]
    cases hresolve : files.resolveModulePath i.segments importingFile with
    | none => exact ⟨t, rfl, ht⟩
    | some modulePath =>
      by_cases hnew : files.canonicalize modulePath ∈ t.visited
      · exact ⟨_, if_pos hnew, ht⟩
      · have hgrow := ht.trans (Finset.subset_insert (files.canonicalize modulePath) t.visited)
        show ∃ scan', (if files.canonicalize modulePath ∈ t.visited then _ else _) = _ ∧ _
        rw [if_neg hnew]
        cases hparse : files.parseModuleFile modulePath with
        | none => exact ⟨_, rfl, hgrow⟩
        | some imported =>
          have hless := unopened_insert hresolve hnew
          have hmono := @unopened_mono _ _ files _ _ ht
          have hfewer : unopened files (insert (files.canonicalize modulePath) t.visited) < n := by
            omega
          obtain ⟨scan', hscan', hsub⟩ := ih imported modulePath ⟨_, _⟩ hfewer
          exact ⟨scan', hscan', hgrow.trans hsub⟩

variable {r : Resolution Path}

variable {r' : Resolution Path}

variable {recurse : Module → Path → Resolution Path → Except (List ImportError) (Resolution Path)}

/-- What one import of the second pass does, if it succeeds. -/
theorem resolveImport_ok {i : ImportPath}
    (h : resolveImport files unions recurse importingFile r i = .ok r') :
    ∃ modulePath, files.resolveModulePath i.segments importingFile = some modulePath ∧
      (files.canonicalize modulePath ∈ r.visited ∧ r' = r ∨
        files.canonicalize modulePath ∉ r.visited ∧
          ∃ imported r₁, files.parseModuleFile modulePath = some imported ∧
            recurse imported modulePath
              { r with visited := insert (files.canonicalize modulePath) r.visited } = .ok r₁ ∧
            missing imported.declarations i = [] ∧
            r' = ⟨r₁.visited, r₁.resolvedDecls ++ mergedFrom modulePath imported.declarations i
              (effectiveSelected unions (files.canonicalize modulePath) i)⟩) := by
  rw [resolveImport] at h
  cases hresolve : files.resolveModulePath i.segments importingFile with
  | none =>
    rw [hresolve] at h
    cases h
  | some modulePath =>
    rw [hresolve] at h
    refine ⟨modulePath, rfl, ?_⟩
    by_cases hold : files.canonicalize modulePath ∈ r.visited
    · cases (if_pos hold).symm.trans h
      exact .inl ⟨hold, rfl⟩
    · refine .inr ⟨hold, ?_⟩
      replace h := (if_neg hold).symm.trans h
      cases hparse : files.parseModuleFile modulePath with
      | none =>
        rw [hparse] at h
        cases h
      | some imported =>
        rw [hparse] at h
        cases hrec : recurse imported modulePath
            ⟨insert (files.canonicalize modulePath) r.visited, r.resolvedDecls⟩ with
        | error e =>
          simp only [hrec] at h
          cases h
        | ok r₁ =>
          simp only [hrec] at h
          cases hmissing : missing imported.declarations i with
          | nil =>
            simp only [bind, Except.bind, hmissing] at h
            cases h
            exact ⟨imported, r₁, rfl, hrec, hmissing, rfl⟩
          | cons e errors =>
            simp only [bind, Except.bind, hmissing] at h
            cases h

theorem resolveImportsInner_ok {n : ℕ} {module : Module}
    (h : resolveImportsInner files unions n module importingFile r = .ok r') :
    ∃ m, n = m + 1 ∧ (extractImports module).foldlM
        (resolveImport files unions (resolveImportsInner files unions m) importingFile) r = .ok r' ∧
      duplicates [] (r'.resolvedDecls.map Merged.decl) = [] := by
  cases n with
  | zero => cases h
  | succ m =>
    refine ⟨m, rfl, ?_⟩
    rw [resolveImportsInner] at h
    cases hloop : (extractImports module).foldlM
        (resolveImport files unions (resolveImportsInner files unions m) importingFile) r with
    | error e =>
      rw [hloop] at h
      cases h
    | ok r₁ =>
      rw [hloop] at h
      replace h : checkDuplicates r₁ = .ok r' := h
      rw [checkDuplicates] at h
      cases hdup : duplicates [] (r₁.resolvedDecls.map Merged.decl) with
      | nil =>
        rw [hdup] at h
        cases h
        exact ⟨rfl, hdup⟩
      | cons e errors =>
        rw [hdup] at h
        cases h

theorem visited_of_loop
    (hrecurse : ∀ {module file r r'}, recurse module file r = .ok r' → r.visited ⊆ r'.visited)
    {imports : List ImportPath}
    (h : imports.foldlM (resolveImport files unions recurse importingFile) r = .ok r') :
    r.visited ⊆ r'.visited := by
  refine List.foldlM_ok_induct (fun _ t => r.visited ⊆ t.visited) h (Finset.Subset.refl _) ?_
  intro _ i _ t t' _ ht hturn
  obtain ⟨_, -, ⟨-, rfl⟩ | ⟨-, _, r₁, -, hrec, -, rfl⟩⟩ := resolveImport_ok hturn
  · exact ht
  · exact (ht.trans (Finset.subset_insert _ _)).trans (hrecurse hrec)

theorem visited_of_resolveImportsInner {n : ℕ} {module : Module}
    (h : resolveImportsInner files unions n module importingFile r = .ok r') :
    r.visited ⊆ r'.visited := by
  induction n generalizing module importingFile r r' with
  | zero => cases h
  | succ n ih =>
    obtain ⟨_, hm, hloop, -⟩ := resolveImportsInner_ok h
    obtain rfl := Nat.succ.inj hm
    exact visited_of_loop ih hloop

theorem outOfFuel_not_mem_missing (decls : List Decl) (i : ImportPath) :
    .outOfFuel ∉ missing decls i := by
  rw [missing, List.mem_filterMap]
  rintro ⟨name, -, h⟩
  rw [selectionError] at h
  split at h
  · cases h
  · split at h
    · cases h
    · cases h

/-- An import runs out of fuel in the file that it opens. -/
theorem resolveImport_outOfFuel {i : ImportPath}
    (h : resolveImport files unions recurse importingFile r i = .error [.outOfFuel]) :
    ∃ modulePath imported, files.resolveModulePath i.segments importingFile = some modulePath ∧
      files.canonicalize modulePath ∉ r.visited ∧
      recurse imported modulePath
        ⟨insert (files.canonicalize modulePath) r.visited, r.resolvedDecls⟩ =
          .error [.outOfFuel] := by
  rw [resolveImport] at h
  cases hresolve : files.resolveModulePath i.segments importingFile with
  | none =>
    rw [hresolve] at h
    cases h
  | some modulePath =>
    rw [hresolve] at h
    by_cases hold : files.canonicalize modulePath ∈ r.visited
    · cases (if_pos hold).symm.trans h
    · replace h := (if_neg hold).symm.trans h
      cases hparse : files.parseModuleFile modulePath with
      | none =>
        rw [hparse] at h
        cases h
      | some imported =>
        rw [hparse] at h
        refine ⟨modulePath, imported, rfl, hold, ?_⟩
        cases hrec : recurse imported modulePath
            ⟨insert (files.canonicalize modulePath) r.visited, r.resolvedDecls⟩ with
        | error e =>
          simp only [hrec] at h
          exact h
        | ok r₁ =>
          simp only [hrec, bind, Except.bind] at h
          have hnot := outOfFuel_not_mem_missing imported.declarations i
          cases hmissing : missing imported.declarations i with
          | nil =>
            rw [hmissing] at h
            cases h
          | cons e errors =>
            rw [hmissing] at h hnot
            cases h
            exact absurd List.mem_cons_self hnot

theorem resolveImportsInner_ne_outOfFuel (n : ℕ) (module : Module) (importingFile : Path)
    (r : Resolution Path) (hfuel : unopened files r.visited < n) :
    resolveImportsInner files unions n module importingFile r ≠ .error [.outOfFuel] := by
  induction n generalizing module importingFile r with
  | zero => exact absurd hfuel (Nat.not_lt_zero _)
  | succ n ih =>
    rw [resolveImportsInner]
    intro h
    cases hloop : (extractImports module).foldlM
        (resolveImport files unions (resolveImportsInner files unions n) importingFile) r with
    | ok r₁ =>
      rw [hloop] at h
      replace h : checkDuplicates r₁ = .error [.outOfFuel] := h
      rw [checkDuplicates] at h
      split at h
      · cases h
      · obtain ⟨e, he⟩ : ∃ e : DuplicateError, ImportError.duplicate e = .outOfFuel := by
          have hmem : ImportError.outOfFuel ∈ List.map ImportError.duplicate _ :=
            Except.error.inj h ▸ List.mem_singleton_self _
          obtain ⟨e, -, he⟩ := List.mem_map.mp hmem
          exact ⟨e, he⟩
        cases he
    | error e =>
      rw [hloop] at h
      cases h
      obtain ⟨pre, i, post, t, -, hpre, hturn⟩ := List.foldlM_error_split hloop
      have hsub := visited_of_loop visited_of_resolveImportsInner hpre
      obtain ⟨modulePath, imported, hresolve, hnew, hrec⟩ := resolveImport_outOfFuel hturn
      have hless := unopened_insert hresolve hnew
      have hmono := @unopened_mono _ _ files _ _ hsub
      have hfewer : unopened files (insert (files.canonicalize modulePath) t.visited) < n := by omega
      exact ih imported modulePath ⟨_, _⟩ hfewer hrec

/-- **The fuel is enough** for both passes. -/
theorem resolveImports_ne_outOfFuel (module : Module) (importingFile : Path)
    (visited : Finset Path) :
    resolveImports files module importingFile visited ≠ .error [.outOfFuel] := by
  have hfuel : ∀ v, unopened files v < files.all.card + 1 := fun v =>
    Nat.lt_succ_of_le (Finset.card_le_card Finset.sdiff_subset)
  obtain ⟨scan, hscan, -⟩ := collectSelectionUnions_ok (files.all.card + 1) module importingFile
    ⟨∅, fun _ => none⟩ (hfuel _)
  rw [resolveImports, hscan]
  exact resolveImportsInner_ne_outOfFuel _ module importingFile ⟨visited, []⟩ (hfuel _)

end Kryos.Driver

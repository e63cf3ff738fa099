import Mathlib
import Kryos.Driver.ImportGraph

/-!
# Private members

A name that starts with an underscore, or names an item of an `extern` block, is no public member of
its module. The second pass refuses to select one, where it checks at all. Two things get past it:
an import that does not come first at its file is not checked, although the first pass counts its
selection; and `extern` blocks are merged whatever is selected, under the names they have.

## Main results

* `resolveImportsInner_follows` — what the second pass merges, and what it has checked
* `sound_of_collect` — every name of a union was selected by some import
* `private_members_iff` — the import graphs in which private members stay private
-/

namespace Kryos.Driver

open Kryos.Ast

/-- A public member of a module with these declarations. -/
structure Importable (decls : List Decl) (name : String) : Prop where
  declared : name ∈ exported decls
  not_private : isPrivateName name = false
  not_foreign : name ∉ externItemNames decls

variable {decls : List Decl}

theorem selectionError_eq_none {moduleName name : String} :
    selectionError decls moduleName name = none ↔ Importable decls name := by
  rw [selectionError]
  constructor
  · intro h
    by_cases hinternal : isPrivateName name = true ∨ name ∈ externItemNames decls
    · rw [if_pos hinternal] at h
      cases h
    · rw [if_neg hinternal] at h
      obtain ⟨hprivate, hforeign⟩ := not_or.mp hinternal
      by_cases hdeclared : name ∈ exported decls
      · exact ⟨hdeclared, Bool.eq_false_iff.mpr hprivate, hforeign⟩
      · rw [if_pos hdeclared] at h
        cases h
  · rintro ⟨hdeclared, hprivate, hforeign⟩
    rw [if_neg (not_or.mpr ⟨Bool.eq_false_iff.mp hprivate, hforeign⟩), if_neg (not_not.mpr hdeclared)]

variable {i : ImportPath}

theorem missing_eq_nil : missing decls i = [] ↔ ∀ name ∈ i.items, Importable decls name := by
  rw [missing, List.filterMap_eq_nil_iff]
  simp only [List.mem_dedup, selectionError_eq_none]

variable {Path : Type} [DecidableEq Path] {files : Files Path} {unions : SelectionUnions Path}

theorem exists_mem_append {α : Type*} {l l' : List α} {P : α → Prop} :
    (∃ a ∈ l ++ l', P a) ↔ (∃ a ∈ l, P a) ∨ ∃ a ∈ l', P a := by
  simp only [List.mem_append, or_and_right, exists_or]

/-! ### What the second pass does -/

/-- The import was checked against the file it leads to. -/
def Checked (files : Files Path) (importingFile : Path) (i : ImportPath) : Prop :=
  ∃ path module, files.resolveModulePath i.segments importingFile = some path ∧
    files.parseModuleFile path = some module ∧ ∀ name ∈ i.items, Importable module.declarations name

/-- The declaration is merged for this import. -/
def MergedFor (files : Files Path) (unions : SelectionUnions Path) (importingFile : Path)
    (i : ImportPath) (x : Merged Path) : Prop :=
  ∃ path module, files.resolveModulePath i.segments importingFile = some path ∧
    files.parseModuleFile path = some module ∧ x ∈ mergedFrom path module.declarations i
      (effectiveSelected unions (files.canonicalize path) i)

/-- From `r` to `r'` the pass has checked and merged the imports that the walk has met on its way
from `w` to `w'`. -/
structure Follows (files : Files Path) (unions : SelectionUnions Path) (r r' : Resolution Path)
    (w w' : Walk Path) : Prop where
  visited : w'.visited = r'.visited
  imports : ∃ new, w'.imports = new ++ w.imports ∧ (∀ p ∈ new, Checked files p.1 p.2) ∧
    ∀ x, x ∈ r'.resolvedDecls ↔ x ∈ r.resolvedDecls ∨ ∃ p ∈ new, MergedFor files unions p.1 p.2 x

variable {r : Resolution Path}

variable {w : Walk Path}

omit [DecidableEq Path] in
theorem Follows.refl (h : w.visited = r.visited) : Follows files unions r r w w :=
  ⟨h, [], rfl, nofun, fun x => by simp⟩

omit [DecidableEq Path] in
theorem Follows.trans {r₁ r₂ : Resolution Path} {w₁ w₂ : Walk Path}
    (h₁ : Follows files unions r r₁ w w₁) (h₂ : Follows files unions r₁ r₂ w₁ w₂) :
    Follows files unions r r₂ w w₂ := by
  obtain ⟨new₁, hnew₁, hchecked₁, hmem₁⟩ := h₁.imports
  obtain ⟨new₂, hnew₂, hchecked₂, hmem₂⟩ := h₂.imports
  refine ⟨h₂.visited, new₂ ++ new₁, ?_, ?_, fun x => ?_⟩
  · rw [hnew₂, hnew₁, List.append_assoc]
  · exact List.forall_mem_append.mpr ⟨hchecked₂, hchecked₁⟩
  · rw [hmem₂, hmem₁, exists_mem_append, or_assoc, or_comm (a := ∃ p ∈ new₁, _)]

variable {importingFile : Path}

theorem resolveImport_follows
    {recurse : Module → Path → Resolution Path → Except (List ImportError) (Resolution Path)}
    {walk : Module → Path → Walk Path → Walk Path}
    (hrecurse : ∀ module file r r' w, recurse module file r = .ok r' → w.visited = r.visited →
      Follows files unions r r' w (walk module file w)) {r' : Resolution Path}
    (h : resolveImport files unions recurse importingFile r i = .ok r') (hw : w.visited = r.visited)
    :
    Follows files unions r r' w (walkImport files walk importingFile w i) := by
  obtain ⟨path, hresolve, ⟨hold, rfl⟩ | ⟨hnew, module, r₁, hparse, hrec, hmissing, rfl⟩⟩ :=
    resolveImport_ok h
  · rw [walkImport, hresolve]
    show Follows files unions _ _ w (if _ then w else _)
    rw [if_pos (hw ▸ hold)]
    exact .refl hw
  · rw [walkImport, hresolve]
    show Follows files unions _ _ w (if _ then w else _)
    rw [if_neg (hw ▸ hnew), hparse]
    have hstep := hrecurse _ _ _ _ ⟨insert (files.canonicalize path) w.visited,
      (importingFile, i) :: w.imports⟩ hrec (by rw [hw])
    obtain ⟨new, himports, hchecked, hmem⟩ := hstep.imports
    refine ⟨hstep.visited, new ++ [(importingFile, i)], ?_, ?_, fun x => ?_⟩
    · rw [List.append_assoc]
      exact himports
    · refine List.forall_mem_append.mpr ⟨hchecked, List.forall_mem_singleton.mpr ?_⟩
      exact ⟨path, module, hresolve, hparse, missing_eq_nil.mp hmissing⟩
    · rw [List.mem_append, hmem, exists_mem_append, or_assoc]
      refine or_congr_right (or_congr_right ?_)
      constructor
      · exact fun hx => ⟨_, List.mem_singleton_self _, path, module, hresolve, hparse, hx⟩
      · rintro ⟨p, hp, path', module', hresolve', hparse', hx⟩
        cases List.mem_singleton.mp hp
        cases hresolve.symm.trans hresolve'
        cases hparse.symm.trans hparse'
        exact hx

variable {module : Module}

/-- **The second pass**, along the walk. -/
theorem resolveImportsInner_follows {n : ℕ} {r' : Resolution Path}
    (h : resolveImportsInner files unions n module importingFile r = .ok r')
    (hw : w.visited = r.visited) :
    Follows files unions r r' w (walkImports files n module importingFile w) := by
  induction n generalizing module importingFile r r' w with
  | zero => cases h
  | succ n ih =>
    obtain ⟨_, hm, hloop, -⟩ := resolveImportsInner_ok h
    obtain rfl := Nat.succ.inj hm
    rw [walkImports]
    clear h
    have hrecurse : ∀ module file r r' w, resolveImportsInner files unions n module file r = .ok r' →
        w.visited = r.visited → Follows files unions r r' w (walkImports files n module file w) :=
      fun _ _ _ _ _ => ih
    -- the loop over the imports of this module
    generalize extractImports module = imports at hloop ⊢
    induction imports generalizing r w with
    | nil =>
      cases hloop
      exact .refl hw
    | cons i imports ihl =>
      obtain ⟨r₁, hturn, hrest⟩ := List.foldlM_cons_ok.mp hloop
      have hfirst := resolveImport_follows hrecurse hturn hw
      exact hfirst.trans (ihl hfirst.visited hrest)

/-! ### What the first pass collects -/

variable {root : Module} {rootPath : Path}

/-- A file is imported whole. -/
def Whole (files : Files Path) (root : Module) (rootPath canonical : Path) : Prop :=
  ∃ importingFile i path, ImportOf files root rootPath importingFile i path ∧
    files.canonicalize path = canonical ∧ i.items = []

/-- The name is selected from the file. -/
def Selected (files : Files Path) (root : Module) (rootPath canonical : Path) (name : String) :
    Prop :=
  ∃ importingFile i path, ImportOf files root rootPath importingFile i path ∧
    files.canonicalize path = canonical ∧ name ∈ i.items

/-- Some import is behind everything in the unions. -/
structure Sound (files : Files Path) (root : Module) (rootPath : Path)
    (unions : SelectionUnions Path) : Prop where
  whole : ∀ c, unions c = some none → Whole files root rootPath c
  selected : ∀ c names, unions c = some (some names) →
    ∀ name ∈ names, Selected files root rootPath c name

theorem sound_update {path : Path} (h : Sound files root rootPath unions)
    (himport : ImportOf files root rootPath importingFile i path) :
    Sound files root rootPath (Function.update unions (files.canonicalize path)
      (some (((unions (files.canonicalize path)).getD (some ∅)).add i.items))) := by
  constructor
  · intro c hc
    by_cases heq : c = files.canonicalize path
    · subst heq
      rw [Function.update_self, Option.some.injEq, Selection.add] at hc
      split at hc
      · rename_i hitems
        exact ⟨importingFile, i, path, himport, rfl, hitems⟩
      · rw [Option.map_eq_none_iff] at hc
        cases hold : unions (files.canonicalize path) with
        | none =>
          rw [hold] at hc
          cases hc
        | some s =>
          rw [hold] at hc
          exact h.whole _ (hold.trans (congrArg some hc))
    · rw [Function.update_of_ne heq] at hc
      exact h.whole c hc
  · intro c names hc name hname
    by_cases heq : c = files.canonicalize path
    · subst heq
      rw [Function.update_self, Option.some.injEq, Selection.add] at hc
      split at hc
      · cases hc
      · obtain ⟨old, hold, rfl⟩ := Option.map_eq_some_iff.mp hc
        obtain hmem | hmem := Finset.mem_union.mp hname
        · cases hentry : unions (files.canonicalize path) with
          | none =>
            rw [hentry] at hold
            cases hold
            exact absurd hmem (Finset.notMem_empty name)
          | some s =>
            rw [hentry] at hold
            exact h.selected _ old (hentry.trans (congrArg some hold)) name hmem
        · exact ⟨importingFile, i, path, himport, rfl, List.mem_toFinset.mp hmem⟩
    · rw [Function.update_of_ne heq] at hc
      exact h.selected c names hc name hname

/-- **The first pass** puts nothing in the unions that no import selects. -/
theorem sound_of_collect {n : ℕ} {scan scan' : Scan Path}
    (h : collectSelectionUnions files n module importingFile scan = .ok scan')
    (hgraph : InGraph files root rootPath module importingFile)
    (hsound : Sound files root rootPath scan.unions) : Sound files root rootPath scan'.unions := by
  induction n generalizing module importingFile scan scan' with
  | zero => cases h
  | succ n ih =>
    rw [collectSelectionUnions] at h
    refine List.foldlM_ok_induct (fun _ (t : Scan Path) => Sound files root rootPath t.unions) h
      hsound ?_
    intro pre i post t t' hsplit ht hturn
    have hi : i ∈ extractImports module :=
      hsplit ▸ List.mem_append_right pre List.mem_cons_self
    rw [scanImport] at hturn
    cases hresolve : files.resolveModulePath i.segments importingFile with
    | none =>
      rw [hresolve] at hturn
      cases hturn
      exact ht
    | some path =>
      rw [hresolve] at hturn
      have hnext := sound_update ht ⟨hresolve, module, hgraph, hi⟩
      by_cases hold : files.canonicalize path ∈ t.visited
      · cases (if_pos hold).symm.trans hturn
        exact hnext
      · replace hturn := (if_neg hold).symm.trans hturn
        cases hparse : files.parseModuleFile path with
        | none =>
          rw [hparse] at hturn
          cases hturn
          exact hnext
        | some imported =>
          rw [hparse] at hturn
          exact ih hturn (.imported hgraph hi hresolve hparse) hnext

/-- The walk stays in the graph. -/
theorem importOf_of_walk {n : ℕ} (hgraph : InGraph files root rootPath module importingFile)
    (hw : ∀ p ∈ w.imports, ∃ path, ImportOf files root rootPath p.1 p.2 path) :
    ∀ p ∈ (walkImports files n module importingFile w).imports,
      ∃ path, ImportOf files root rootPath p.1 p.2 path := by
  induction n generalizing module importingFile w with
  | zero => exact hw
  | succ n ih =>
    rw [walkImports]
    refine List.foldlRecOn (motive := fun t : Walk Path => ∀ p ∈ t.imports, ∃ path,
      ImportOf files root rootPath p.1 p.2 path) _ _ hw fun t ht i hi => ?_
    rw [walkImport]
    cases hresolve : files.resolveModulePath i.segments importingFile with
    | none => exact ht
    | some path =>
      show ∀ p ∈ Walk.imports (if files.canonicalize path ∈ t.visited then t else _), _
      by_cases hold : files.canonicalize path ∈ t.visited
      · rw [if_pos hold]
        exact ht
      · rw [if_neg hold]
        cases hparse : files.parseModuleFile path with
        | none => exact ht
        | some imported =>
          refine ih (.imported hgraph hi hresolve hparse) ?_
          exact List.forall_mem_cons.mpr ⟨⟨path, hresolve, module, hgraph, hi⟩, ht⟩

/-! ### What can be called -/

/-- The functions that can be called by the name they have in their own module. -/
def bareFunctions (x : Merged Path) : List String :=
  (if x.decl.functionName = x.source.functionName then x.decl.functionName.toList else []) ++
    (externItems x.decl).filterMap Decl.functionName

theorem declNameOf_of_functionName {d : Decl} {n : String} (h : d.functionName = some n) :
    declNameOf d = some n := by
  cases d with
  | function => exact h
  | _ => cases h

theorem externItems_mergeDecl (map : Renaming) (d : Decl) :
    externItems (mergeDecl map d) = externItems d := by
  rw [mergeDecl]
  split
  · rfl
  · cases d <;> rfl

theorem mem_externItemNames {d : Decl} {n : String} (hd : d ∈ decls)
    (hn : n ∈ (externItems d).filterMap Decl.functionName) : n ∈ externItemNames decls := by
  obtain ⟨item, hitem, hname⟩ := List.mem_filterMap.mp hn
  refine List.mem_flatMap.mpr ⟨d, hd, List.mem_filterMap.mpr ⟨item, hitem, ?_⟩⟩
  exact declNameOf_of_functionName hname

omit [DecidableEq Path] in
/-- Why a function that was merged has its own name. -/
theorem bare_of_mem_mergedFrom {path : Path} {selection : Selection} {x : Merged Path}
    (hx : x ∈ mergedFrom path decls i selection) {n : String} (hn : n ∈ bareFunctions x) :
    x.origin = path ∧ ((∃ d ∈ decls, n ∈ (externItems d).filterMap Decl.functionName) ∨
      selection = none ∨ ∃ names, selection = some names ∧ n ∈ names) := by
  cases selection with
  | none =>
    obtain ⟨d, -, rfl⟩ := List.mem_map.mp hx
    exact ⟨rfl, .inr (.inl rfl)⟩
  | some selected =>
    obtain ⟨d, hd, rfl⟩ := List.mem_map.mp hx
    refine ⟨rfl, ?_⟩
    obtain hfunction | hforeign := List.mem_append.mp hn
    · refine .inr (.inr ⟨selected, rfl, ?_⟩)
      by_contra hnot
      have htaken := mem_taken_iff.mp hd
      have hrename := functionName_mergeDecl (renameMap decls selected (moduleTag i)) d
      split at hfunction
      · rename_i hbare
        have hname := hbare.symm.trans (Option.mem_toList.mp hfunction)
        obtain ⟨hmain, hpulled⟩ := htaken.2.2 n hname
        have hmem : n ∈ functionNames decls := List.mem_filterMap.mpr ⟨d, htaken.1, hname⟩
        have hrenamed : Renamed decls selected n := ⟨hmem, hpulled, hnot, hmain⟩
        rw [hbare, hname, Option.map_some, apply_of_renamed hrenamed] at hrename
        exact mangledName_ne n (Option.some.inj hrename).symm
      · cases hfunction
    · rw [externItems_mergeDecl] at hforeign
      exact .inl ⟨d, List.mem_of_mem_filter hd, hforeign⟩

omit [DecidableEq Path] in
/-- An `extern` block is merged whatever is selected. -/
theorem exists_extern_of_mergedFrom {path : Path} {decls : List Decl} {i : ImportPath}
    (selection : Selection) {d : Decl} (hd : d ∈ decls) {n : String}
    (hn : n ∈ (externItems d).filterMap Decl.functionName) :
    ∃ x ∈ mergedFrom path decls i selection, n ∈ bareFunctions x ∧ x.origin = path := by
  cases d with
  | externBlock abi items docs span =>
    cases selection with
    | none =>
      refine ⟨_, List.mem_map.mpr ⟨_, List.mem_filter.mpr ⟨hd, rfl⟩, rfl⟩, ?_, rfl⟩
      exact List.mem_append_right _ hn
    | some selected =>
      refine ⟨_, List.mem_map.mpr ⟨_, List.mem_filter.mpr ⟨hd, rfl⟩, rfl⟩, ?_, rfl⟩
      refine List.mem_append_right _ ?_
      rw [externItems_mergeDecl]
      exact hn
  | _ => cases hn

/-! ### Private members -/

/-- What the import selects is public in the file it leads to. -/
def SelectsPublic (files : Files Path) (i : ImportPath) (path : Path) : Prop :=
  ∀ name ∈ i.items, ∃ module, files.parseModuleFile path = some module ∧
    Importable module.declarations name

/-- No private member is imported, and none can be called by its own name. -/
structure KeepsPrivate (files : Files Path) (root : Module) (rootPath : Path)
    (r : Resolution Path) : Prop where
  selected : ∀ importingFile i path, ImportOf files root rootPath importingFile i path →
    SelectsPublic files i path
  callable : ∀ x ∈ r.resolvedDecls, ∀ name ∈ bareFunctions x,
    (∃ module, files.parseModuleFile x.origin = some module ∧
      Importable module.declarations name) ∨
    Whole files root rootPath (files.canonicalize x.origin)

/-- What the two passes leave to the programmer. -/
structure Guarded (files : Files Path) (root : Module) (rootPath : Path) (visited : Finset Path) :
    Prop where
  /-- An import that does not come first selects public members only. -/
  late : ∀ importingFile i path, ImportOf files root rootPath importingFile i path →
    (importingFile, i) ∉ firstImports files root rootPath visited → SelectsPublic files i path
  /-- A file with an `extern` function is imported whole. -/
  foreign : ∀ p ∈ firstImports files root rootPath visited, ∀ path module,
    files.resolveModulePath p.2.segments p.1 = some path →
    files.parseModuleFile path = some module →
    (∃ d ∈ module.declarations, (externItems d).filterMap Decl.functionName ≠ []) →
    Whole files root rootPath (files.canonicalize path)

/-- What an accepted program has been through. -/
theorem resolveImports_ok {visited : Finset Path}
    (h : resolveImports files root rootPath visited = .ok r) :
    ∃ unions, Sound files root rootPath unions ∧
      (∀ p ∈ firstImports files root rootPath visited, Checked files p.1 p.2) ∧
      ∀ x, x ∈ r.resolvedDecls ↔
        ∃ p ∈ firstImports files root rootPath visited, MergedFor files unions p.1 p.2 x := by
  rw [resolveImports] at h
  cases hscan : collectSelectionUnions files (files.all.card + 1) root rootPath
      ⟨∅, fun _ => none⟩ with
  | error e =>
    rw [hscan] at h
    cases h
  | ok scan =>
    rw [hscan] at h
    refine ⟨scan.unions, sound_of_collect hscan .root ⟨(by intros; contradiction), (by intros; contradiction)⟩, ?_⟩
    have hfollows := resolveImportsInner_follows (w := ⟨visited, []⟩) h rfl
    obtain ⟨new, himports, hchecked, hmem⟩ := hfollows.imports
    rw [List.append_nil] at himports
    rw [firstImports, himports]
    exact ⟨hchecked, fun x => (hmem x).trans (or_iff_right List.not_mem_nil)⟩

/-- **Private members stay private** in exactly these import graphs. -/
theorem private_members_iff {visited : Finset Path} {r : Resolution Path}
    (h : resolveImports files root rootPath visited = .ok r) :
    KeepsPrivate files root rootPath r ↔ Guarded files root rootPath visited := by
  obtain ⟨unions, hsound, hchecked, hmem⟩ := resolveImports_ok h
  constructor
  · rintro ⟨hselected, hcallable⟩
    refine ⟨fun importingFile i path himport _ => hselected importingFile i path himport, ?_⟩
    rintro p hp path module hresolve hparse ⟨d, hd, hfunctions⟩
    obtain ⟨n, hn⟩ := List.exists_mem_of_ne_nil _ hfunctions
    obtain ⟨x, hx, hbare, rfl⟩ := @exists_extern_of_mergedFrom _ path _ p.2
      (effectiveSelected unions (files.canonicalize path) p.2) _ hd _ hn
    have hmerged := (hmem x).mpr ⟨p, hp, x.origin, module, hresolve, hparse, hx⟩
    obtain ⟨module', hparse', hpublic⟩ | hwhole := hcallable x hmerged n hbare
    · cases hparse.symm.trans hparse'
      exact absurd (mem_externItemNames hd hn) hpublic.not_foreign
    · exact hwhole
  · rintro ⟨hlate, hforeign⟩
    have hselected : ∀ importingFile i path, ImportOf files root rootPath importingFile i path →
        SelectsPublic files i path := by
      intro importingFile i path himport
      by_cases hfirst : (importingFile, i) ∈ firstImports files root rootPath visited
      · obtain ⟨path', module, hresolve, hparse, hpublic⟩ := hchecked _ hfirst
        cases hresolve.symm.trans himport.resolves
        exact fun name hname => ⟨module, hparse, hpublic name hname⟩
      · exact hlate importingFile i path himport hfirst
    refine ⟨hselected, fun x hx name hname => ?_⟩
    obtain ⟨p, hp, path, module, hresolve, hparse, hmerged⟩ := (hmem x).mp hx
    obtain ⟨path', himport⟩ : ∃ path, ImportOf files root rootPath p.1 p.2 path :=
      importOf_of_walk .root (List.forall_mem_nil _) p hp
    cases hresolve.symm.trans himport.resolves
    obtain ⟨rfl, ⟨d, hd, hn⟩ | hnone | ⟨names, hsome, hin⟩⟩ := bare_of_mem_mergedFrom hmerged hname
    · exact .inr (hforeign p hp _ module hresolve hparse ⟨d, hd, List.ne_nil_of_mem hn⟩)
    · -- merged whole
      rw [effectiveSelected] at hnone
      cases hunion : unions (files.canonicalize x.origin) with
      | none =>
        rw [hunion, Option.getD_none] at hnone
        split at hnone
        · rename_i hitems
          exact .inr ⟨p.1, p.2, _, himport, rfl, hitems⟩
        · cases hnone
      | some s =>
        rw [hunion, Option.getD_some] at hnone
        exact .inr (hsound.whole _ (hunion.trans (congrArg some hnone)))
    · -- merged because some importer selects it
      refine .inl ?_
      rw [effectiveSelected] at hsome
      cases hunion : unions (files.canonicalize x.origin) with
      | none =>
        rw [hunion, Option.getD_none] at hsome
        split at hsome
        · cases hsome
        · cases hsome
          exact hselected p.1 p.2 _ himport name (List.mem_toFinset.mp hin)
      | some s =>
        rw [hunion, Option.getD_some] at hsome
        obtain ⟨file, i, path, hother, hcanonical, hitem⟩ :=
          hsound.selected _ names (hunion.trans (congrArg some hsome)) name hin
        obtain ⟨module', hparse', hpublic⟩ := hselected file i path hother name hitem
        exact ⟨module', (files.same_text hcanonical).symm.trans hparse', hpublic⟩

/-! ### An import that comes late -/

def emptySpan : Span := ⟨0, 0, 0⟩

def selecting (segment name : String) : ImportPath := ⟨[segment], none, [name], emptySpan⟩

def importing (i : ImportPath) : Decl := .importDecl i [] emptySpan

/-- `use tools::{open_file}` and then `use user::{go}` -/
def lateRoot : Module :=
  ⟨"main", [importing (selecting "tools" "open_file"), importing (selecting "user" "go")], emptySpan⟩

/-- Both a public and a private function. -/
def toolsModule : Module :=
  ⟨"tools", [plainFunction "open_file" [], plainFunction "_raw_open" []], emptySpan⟩

/-- It selects `_raw_open` from `tools`. -/
def userModule : Module :=
  ⟨"user", [importing (selecting "tools" "_raw_open"), plainFunction "go" []], emptySpan⟩

def lateModules : Fin 3 → Option Module
  | 0 => lateRoot
  | 1 => toolsModule
  | 2 => userModule

def lateFiles : Files (Fin 3) where
  resolveModulePath segments _ :=
    if segments = ["tools"] then some 1 else if segments = ["user"] then some 2 else none
  canonicalize := id
  parseModuleFile := lateModules
  all := {0, 1, 2}
  mem_all {_ _ path} _ := (by decide : ∀ p : Fin 3, p ∈ ({0, 1, 2} : Finset (Fin 3))) path
  same_text h := congrArg lateModules h

theorem lateFiles_accepted : ∃ r, resolveImports lateFiles lateRoot 0 {0} = .ok r := by
  have hok : (resolveImports lateFiles lateRoot 0 {0}).toOption.isSome = true := by decide
  cases h : resolveImports lateFiles lateRoot 0 {0} with
  | error e =>
    rw [h] at hok
    cases hok
  | ok r => exact ⟨r, rfl⟩

theorem private_members_iff_late : ∃ r, resolveImports lateFiles lateRoot 0 {0} = .ok r ∧
    (KeepsPrivate lateFiles lateRoot 0 r ↔ Guarded lateFiles lateRoot 0 {0}) := by
  obtain ⟨r, hr⟩ := lateFiles_accepted
  exact ⟨r, hr, private_members_iff hr⟩

/-- The second import of `tools` takes its private function. -/
theorem late_import_takes_private : ∃ r, resolveImports lateFiles lateRoot 0 {0} = .ok r ∧
    ¬ KeepsPrivate lateFiles lateRoot 0 r := by
  obtain ⟨r, hr⟩ := lateFiles_accepted
  refine ⟨r, hr, fun hkeeps => ?_⟩
  have huser : InGraph lateFiles lateRoot 0 userModule 2 := by
    refine .imported .root (i := selecting "user" "go") ?_ rfl rfl
    exact List.mem_cons_of_mem _ List.mem_cons_self
  have himport : ImportOf lateFiles lateRoot 0 2 (selecting "tools" "_raw_open") 1 :=
    ⟨rfl, userModule, huser, List.mem_cons_self⟩
  obtain ⟨module, -, hpublic⟩ := hkeeps.selected _ _ _ himport "_raw_open" List.mem_cons_self
  have hprivate : isPrivateName "_raw_open" = true := by decide +kernel
  exact Bool.false_ne_true (hpublic.not_private.symm.trans hprivate)

end Kryos.Driver

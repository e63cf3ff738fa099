import Kryos.Package.Semver
import Mathlib.Data.Finset.Erase
import Mathlib.Data.Finset.Insert
import Mathlib.Data.List.AList

/-!
# Dependency resolution

The resolver turns the dependency table of a manifest into a graph of concrete packages. It is
greedy: the first requirement met for a name picks the highest version that it admits, later
requirements are only checked against that pick. Registry packages are explored depth first, with a
set and a stack of the names under way for cycle detection; path dependencies enter the table of
resolved packages through code of their own.

All tables of the source are hash maps, so the order in which their entries are met is not part of
the input. An `Enumeration` fixes it for one run. Recursion is bounded by `fuel`, which stands for
the depth of the call stack.

## Main definitions

* `resolveRecursive`, `resolve` — the resolver
* `Demanded` — the requirements that the roots of a table can give rise to
-/

namespace Kryos.Package

abbrev HashMap (β : Type) := AList fun _ : String => β

abbrev Entry (β : Type) := Σ _ : String, β

inductive DepSpec where
  | remote (source : String) (versionReq : VersionReq)
  | path (path : String)
deriving DecidableEq

inductive PackageSource where
  | remote (source : String)
  | path (path : String)
deriving DecidableEq

structure ResolvedPackage where
  name : String
  version : Version
  source : PackageSource
  dependencies : List String
  checksum : Option String
deriving DecidableEq

structure AvailablePackage where
  name : String
  version : Version
  source : String
  dependencies : HashMap VersionReq
  checksum : Option String
deriving DecidableEq

structure PackageRegistry where
  packages : HashMap (List AvailablePackage)

inductive ResolveError where
  | noMatchingVersion (package requirement : String)
  | versionConflict (package reqA fromA reqB fromB : String)
  | circularDependency (cycle : List String)
  | packageNotFound (package : String)
deriving DecidableEq

/-- How a call can end without a value: an error of the source, a failed `unwrap`, or recursion
past the given depth. -/
inductive Failure where
  | error (e : ResolveError)
  | panicked
  | diverged
deriving DecidableEq

structure ResolvedGraph where
  packages : List ResolvedPackage
deriving DecidableEq

/-- The part of a `kryos.toml` that resolution reads. -/
structure Manifest where
  version : String
  dependencies : HashMap DepSpec

/-- The manifests that can be read, by the path of the package. -/
abbrev Disk := String → Option Manifest

/-- The order in which the tables are met: the table of the root, and that of each package. -/
structure Enumeration where
  roots : HashMap DepSpec → List (Entry DepSpec)
  roots_perm : ∀ m, (roots m).Perm m.entries
  specs : String → HashMap DepSpec → List (Entry DepSpec)
  specs_perm : ∀ name m, (specs name m).Perm m.entries
  reqs : String → HashMap VersionReq → List (Entry VersionReq)
  reqs_perm : ∀ name m, (reqs name m).Perm m.entries

/-- Every table from front to back. -/
def Enumeration.listed : Enumeration :=
  ⟨fun m => m.entries, fun _ => .refl _, fun _ m => m.entries, fun _ _ => .refl _,
    fun _ m => m.entries, fun _ _ => .refl _⟩

/-- Every table from back to front. -/
def Enumeration.reversed : Enumeration :=
  ⟨fun m => m.entries.reverse, fun m => m.entries.reverse_perm,
    fun _ m => m.entries.reverse, fun _ m => m.entries.reverse_perm,
    fun _ m => m.entries.reverse, fun _ m => m.entries.reverse_perm⟩

/-! ## The registry -/

variable {registry : PackageRegistry}

namespace PackageRegistry

def new : PackageRegistry := ⟨∅⟩

/-- `entry(name).or_default().push(pkg)` -/
def add (registry : PackageRegistry) (pkg : AvailablePackage) : PackageRegistry :=
  ⟨registry.packages.insert pkg.name ((registry.packages.lookup pkg.name).getD [] ++ [pkg])⟩

/-- `Iterator::max_by` on versions: of several greatest elements, the last. -/
def maxByVersion : List AvailablePackage → Option AvailablePackage
  | [] => none
  | p :: ps => some (ps.foldl (fun a b => if a.version.cmp b.version = .gt then a else b) p)

/-- The highest version that satisfies the requirement. -/
def findBestMatch (registry : PackageRegistry) (name : String) (req : VersionReq) :
    Option AvailablePackage :=
  match registry.packages.lookup name with
  | none => none
  | some versions => maxByVersion (versions.filter fun p => req.matches p.version)

def getVersions (registry : PackageRegistry) (name : String) : Option (List AvailablePackage) :=
  registry.packages.lookup name

theorem maxByVersion_mem {ps : List AvailablePackage} {pkg : AvailablePackage}
    (h : maxByVersion ps = some pkg) : pkg ∈ ps := by
  cases ps with
  | nil => cases h
  | cons p ps =>
    cases h
    have key : ∀ (qs : List AvailablePackage) (a : AvailablePackage),
        qs.foldl (fun a b => if a.version.cmp b.version = .gt then a else b) a ∈ a :: qs := by
      intro qs
      induction qs with
      | nil => simp
      | cons q qs ih =>
        intro a
        have := ih (if a.version.cmp q.version = .gt then a else q)
        grind
    exact key ps p

section

variable {name : String} {req : VersionReq} {pkg : AvailablePackage}
  (h : registry.findBestMatch name req = some pkg)

include h

theorem findBestMatch_some :
    ∃ versions, registry.getVersions name = some versions ∧ pkg ∈ versions ∧
      req.matches pkg.version := by
  rw [findBestMatch] at h
  split at h
  · cases h
  · rename_i versions hversions
    have hmem := List.mem_filter.mp (maxByVersion_mem h)
    exact ⟨versions, hversions, hmem.1, hmem.2⟩

theorem mem_of_findBestMatch : name ∈ registry.packages := by
  obtain ⟨versions, hversions, -, -⟩ := findBestMatch_some h
  rw [← AList.lookup_isSome, show registry.packages.lookup name = some versions from hversions]
  rfl

end

end PackageRegistry

/-! ## The resolver -/

/-- The tables a resolution updates. -/
structure Resolver where
  resolved : HashMap ResolvedPackage
  versionConstraints : HashMap (VersionReq × String)
  visiting : Finset String
  visitStack : List String

def Resolver.init : Resolver := ⟨∅, ∅, ∅, []⟩

def Resolver.enter (s : Resolver) (name : String) : Resolver :=
  { s with visiting := insert name s.visiting, visitStack := s.visitStack ++ [name] }

def Resolver.store (s : Resolver) (name : String) (node : ResolvedPackage) : Resolver :=
  { s with resolved := s.resolved.insert name node }

/-- Leave `name` and store it as resolved. -/
def Resolver.leave (s : Resolver) (name : String) (req : VersionReq) (requiredBy : String)
    (node : ResolvedPackage) : Resolver :=
  { resolved := s.resolved.insert name node
    versionConstraints := s.versionConstraints.insert name (req, requiredBy)
    visiting := s.visiting.erase name
    visitStack := s.visitStack.dropLast }

/-- The node of a registry package, its dependencies in the order in which they were met. -/
def ResolvedPackage.ofRegistry (name : String) (pkg : AvailablePackage) (deps : List String) :
    ResolvedPackage :=
  ⟨name, pkg.version, .remote pkg.source, deps, pkg.checksum⟩

/-- The node of a path dependency. -/
def ResolvedPackage.ofPath (name path : String) (version : Version) (deps : List String) :
    ResolvedPackage :=
  ⟨name, version, .path path, deps, none⟩

def readPathDepInfo (disk : Disk) (_name path : String) : Version × HashMap DepSpec :=
  match disk path with
  | none => (.new 0 0 0, ∅)
  | some manifest =>
    ((match Version.fromStr manifest.version with
      | .ok v => v
      | .error _ => .new 0 0 0), manifest.dependencies)

def resolveRecursive (order : Enumeration) (registry : PackageRegistry) :
    (fuel : Nat) → (name : String) → (req : VersionReq) → (sourceHint requiredBy : String) →
      Resolver → Except Failure Resolver
  | 0, _, _, _, _, _ => .error .diverged
  | fuel + 1, name, req, _, requiredBy, s =>
    if name ∈ s.visiting then
      match s.visitStack.idxOf? name with
      | none => .error .panicked
      | some start => .error (.error (.circularDependency (s.visitStack.drop start ++ [name])))
    else
      match s.resolved.lookup name with
      | some existing =>
        if req.matches existing.version then .ok s
        else
          match s.versionConstraints.lookup name with
          -- `version_constraints.get(name).unwrap()`
          | none => .error .panicked
          | some (prevReq, prevFrom) =>
            .error (.error
              (.versionConflict name prevReq.toString prevFrom req.toString requiredBy))
      | none =>
        match registry.getVersions name with
        | none => .error (.error (.packageNotFound name))
        | some _ =>
          match registry.findBestMatch name req with
          | none => .error (.error (.noMatchingVersion name req.toString))
          | some pkg =>
            let deps := order.reqs name pkg.dependencies
            match deps.foldlM (fun s dep =>
                resolveRecursive order registry fuel dep.1 dep.2 pkg.source name s)
                (s.enter name) with
            | .error f => .error f
            | .ok s' =>
              .ok (s'.leave name req requiredBy (.ofRegistry name pkg (deps.map Sigma.fst)))

section

variable (order : Enumeration) (disk : Disk) (registry : PackageRegistry) (fuel : Nat)

/-- One dependency of a path dependency's manifest. -/
def resolveManifestDep (name : String) (s : Resolver) (dep : Entry DepSpec) :
    Except Failure Resolver :=
  match dep.2 with
  | .path depPath =>
    if dep.1 ∈ s.resolved then .ok s
    else
      let (v, _) := readPathDepInfo disk dep.1 depPath
      .ok (s.store dep.1 (.ofPath dep.1 depPath v []))
  | .remote source versionReq =>
    resolveRecursive order registry fuel dep.1 versionReq source name s

/-- One root dependency. -/
def resolveRoot (s : Resolver) (dep : Entry DepSpec) : Except Failure Resolver :=
  match dep.2 with
  | .path path =>
    if dep.1 ∈ s.resolved then .ok s
    else
      let (version, transitiveDeps) := readPathDepInfo disk dep.1 path
      let deps := order.specs dep.1 transitiveDeps
      deps.foldlM (resolveManifestDep order disk registry fuel dep.1)
        (s.store dep.1 (.ofPath dep.1 path version (deps.map Sigma.fst)))
  | .remote source versionReq =>
    resolveRecursive order registry fuel dep.1 versionReq source "root" s

def resolve (rootDeps : HashMap DepSpec) : Except Failure ResolvedGraph :=
  match (order.roots rootDeps).foldlM (resolveRoot order disk registry fuel) Resolver.init with
  | .error f => .error f
  | .ok s => .ok ⟨s.resolved.entries.map Sigma.snd⟩

end

/-- `ResolvedGraph::get` -/
def ResolvedGraph.get (graph : ResolvedGraph) (name : String) : Option ResolvedPackage :=
  graph.packages.find? fun p => p.name = name

/-- The requirements that a run from `roots` can meet: those of the roots, those of the manifests of
path roots, and those of every registry package that is the best match of such a requirement. -/
inductive Demanded (disk : Disk) (registry : PackageRegistry) (roots : List (Entry DepSpec)) :
    String → DepSpec → Prop
  | root {dep : Entry DepSpec} : dep ∈ roots → Demanded disk registry roots dep.1 dep.2
  | manifest {dep sub : Entry DepSpec} {path : String} : dep ∈ roots → dep.2 = .path path →
      sub ∈ (readPathDepInfo disk dep.1 path).2.entries → Demanded disk registry roots sub.1 sub.2
  | registry {name source : String} {req : VersionReq} {pkg : AvailablePackage}
      {sub : Entry VersionReq} : Demanded disk registry roots name (.remote source req) →
      registry.findBestMatch name req = some pkg → sub ∈ pkg.dependencies.entries →
      Demanded disk registry roots sub.1 (.remote pkg.source sub.2)

theorem Demanded.mono {disk : Disk} {roots roots' : List (Entry DepSpec)} {name : String}
    {spec : DepSpec} (hsub : roots ⊆ roots') (h : Demanded disk registry roots name spec) :
    Demanded disk registry roots' name spec := by
  induction h with
  | root hdep => exact .root (hsub hdep)
  | manifest hdep hpath hmem => exact .manifest (hsub hdep) hpath hmem
  | registry _ hbest hmem ih => exact .registry ih hbest hmem

/-- A list of requirements that contains those of the roots and with each one those that it gives
rise to. -/
def DemandsClosed (disk : Disk) (registry : PackageRegistry) (roots all : List (Entry DepSpec)) :
    Bool :=
  roots.all (fun dep => decide (dep ∈ all) &&
    match dep.2 with
    | .path path => (readPathDepInfo disk dep.1 path).2.entries.all fun sub => decide (sub ∈ all)
    | .remote _ _ => true) &&
  all.all fun dep =>
    match dep.2 with
    | .path _ => true
    | .remote _ req =>
      match registry.findBestMatch dep.1 req with
      | none => true
      | some pkg => pkg.dependencies.entries.all fun sub =>
          decide (⟨sub.1, .remote pkg.source sub.2⟩ ∈ all)

theorem Demanded.mem_of_closed {disk : Disk} {roots all : List (Entry DepSpec)}
    (hall : DemandsClosed disk registry roots all) {name : String} {spec : DepSpec}
    (h : Demanded disk registry roots name spec) : (⟨name, spec⟩ : Entry DepSpec) ∈ all := by
  rw [DemandsClosed, Bool.and_eq_true, List.all_eq_true, List.all_eq_true] at hall
  induction h with
  | root hdep =>
    have := hall.1 _ hdep
    simp only [Bool.and_eq_true, decide_eq_true_eq] at this
    exact this.1
  | @manifest dep sub path hdep hpath hsub =>
    have := hall.1 _ hdep
    simp only [Bool.and_eq_true, decide_eq_true_eq, hpath, List.all_eq_true] at this
    exact this.2 sub hsub
  | @registry name source req pkg sub _ hbest hsub ih =>
    have := hall.2 _ ih
    simp only [hbest, List.all_eq_true, decide_eq_true_eq] at this
    exact this sub hsub

/-! ## What a call can do -/

section

variable {order : Enumeration} {disk : Disk} {registry : PackageRegistry} {fuel : Nat}
  {name requiredBy hint : String} {req : VersionReq} {s s' : Resolver} {f : Failure}

/-- The loop over the dependencies of `pkg`, which was picked for `name`. -/
abbrev resolveDeps (order : Enumeration) (registry : PackageRegistry) (fuel : Nat) (name : String)
    (pkg : AvailablePackage) (s : Resolver) : Except Failure Resolver :=
  (order.reqs name pkg.dependencies).foldlM (fun s dep =>
    resolveRecursive order registry fuel dep.1 dep.2 pkg.source name s) (s.enter name)

/-- A call succeeds on a name that is resolved to an admitted version, or by resolving the
dependencies of the best match. -/
theorem resolveRecursive_ok (h : resolveRecursive order registry fuel name req hint requiredBy s
      = .ok s') :
    name ∉ s.visiting ∧
      ((∃ node, s.resolved.lookup name = some node ∧ req.matches node.version ∧ s' = s) ∨
        ∃ k pkg t, fuel = k + 1 ∧ s.resolved.lookup name = none ∧
          registry.findBestMatch name req = some pkg ∧
          resolveDeps order registry k name pkg s = .ok t ∧
          s' = t.leave name req requiredBy
            (.ofRegistry name pkg ((order.reqs name pkg.dependencies).map Sigma.fst))) := by
  cases fuel with
  | zero => cases h
  | succ k =>
    rw [resolveRecursive] at h
    split at h
    · split at h <;> cases h
    · rename_i hvisiting
      refine ⟨hvisiting, ?_⟩
      split at h
      · rename_i node hnode
        split at h
        · rename_i hmatch
          cases h
          exact .inl ⟨node, hnode, hmatch, rfl⟩
        · split at h <;> cases h
      · rename_i hnone
        split at h
        · cases h
        · split at h
          · cases h
          · rename_i pkg hpkg
            simp only at h
            split at h
            · cases h
            · rename_i t ht
              cases h
              exact .inr ⟨k, pkg, t, rfl, hnone, hpkg, ht, rfl⟩

/-- A call fails for want of depth, on a name under way, on a resolved version that it does not
admit, for want of a match, or in its dependencies. -/
theorem resolveRecursive_error (h : resolveRecursive order registry fuel name req hint requiredBy s
      = .error f) :
    (fuel = 0 ∧ f = .diverged) ∨
      (name ∈ s.visiting ∧
        (name ∉ s.visitStack ∧ f = .panicked ∨ ∃ e, f = .error e)) ∨
      (name ∉ s.visiting ∧ ∃ node, s.resolved.lookup name = some node ∧
        ¬ req.matches node.version ∧
        (name ∉ s.versionConstraints ∧ f = .panicked ∨ ∃ e, f = .error e)) ∨
      (name ∉ s.visiting ∧ s.resolved.lookup name = none ∧
        registry.findBestMatch name req = none ∧ ∃ e, f = .error e) ∨
      (name ∉ s.visiting ∧ s.resolved.lookup name = none ∧ ∃ k pkg, fuel = k + 1 ∧
        registry.findBestMatch name req = some pkg ∧
        resolveDeps order registry k name pkg s = .error f) := by
  cases fuel with
  | zero =>
    cases h
    exact .inl ⟨rfl, rfl⟩
  | succ k =>
    refine .inr ?_
    rw [resolveRecursive] at h
    split at h
    · rename_i hvisiting
      refine .inl ⟨hvisiting, ?_⟩
      split at h
      · rename_i hidx
        cases h
        exact .inl ⟨by simpa using hidx, rfl⟩
      · cases h
        exact .inr ⟨_, rfl⟩
    · rename_i hvisiting
      refine .inr ?_
      split at h
      · rename_i node hnode
        split at h
        · cases h
        · rename_i hmatch
          refine .inl ⟨hvisiting, node, hnode, hmatch, ?_⟩
          split at h
          · rename_i hnone
            cases h
            exact .inl ⟨AList.lookup_eq_none.mp hnone, rfl⟩
          · cases h
            exact .inr ⟨_, rfl⟩
      · rename_i hnone
        refine .inr ?_
        split at h
        · rename_i hversions
          cases h
          refine .inl ⟨hvisiting, hnone, ?_, _, rfl⟩
          rw [PackageRegistry.findBestMatch]
          rw [PackageRegistry.getVersions] at hversions
          rw [hversions]
        · split at h
          · rename_i hbest
            cases h
            exact .inl ⟨hvisiting, hnone, hbest, _, rfl⟩
          · rename_i pkg hpkg
            simp only at h
            split at h
            · rename_i f' hf
              cases h
              exact .inr ⟨hvisiting, hnone, k, pkg, rfl, hpkg, hf⟩
            · cases h

end

end Kryos.Package

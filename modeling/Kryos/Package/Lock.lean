import Kryos.Lib.FallibleLoop
import Kryos.Lib.ListRel
import Kryos.Lib.StateInvariant
import Kryos.Package.Fetch
import Kryos.Package.VersionText
import Mathlib.Data.List.Lex

/-!
# Lock files and pinned installs

A lock file lists the packages of a resolved graph as text: versions as `Display` writes them, a path
source behind `path:`, any other source as it is. An install that finds a lock file compares it with
the manifest. If every dependency of the manifest has an entry whose version is admitted, the lock
file alone decides what is fetched, and from where.

What the comparison leaves out is the source of an entry, and the entries that no dependency of the
manifest names. `Recorded` and `Listed` are what it would have to add.

## Main results

* `honours_iff`, `closed_iff` — when the graph of a covering lock file is the manifest's
* `lockToGraph_fromResolved_iff` — when a graph survives being written and read
* `installPinned_checked` — every remote package was compared with the checksum of its entry
-/

namespace Kryos.Package

open StateInvariant

/-! ## The file -/

structure LockEntry where
  name : String
  version : String
  source : String
  checksum : Option String
  dependencies : List String
deriving DecidableEq

structure LockFile where
  packages : List LockEntry

namespace LockFile

/-- What `from_resolved` writes for one package. -/
def entryOf (pkg : ResolvedPackage) : LockEntry where
  name := pkg.name
  version := pkg.version.toString
  source := match pkg.source with
    | .remote s => s
    | .path p => "path:" ++ p
  checksum := pkg.checksum
  dependencies := pkg.dependencies

/-- The order of the entries: by name, then by the text of the version. -/
def entryLe (a b : LockEntry) : Bool :=
  decide (a.name < b.name) || (a.name == b.name && decide (a.version ≤ b.version))

def fromResolved (graph : ResolvedGraph) : LockFile :=
  ⟨(graph.packages.map entryOf).mergeSort entryLe⟩

def get (lock : LockFile) (name : String) : Option LockEntry :=
  lock.packages.find? fun p => p.name = name

end LockFile

/-! ## The install -/

/-- Whether the entry of a dependency is missing or too far from what is asked for. A path
dependency is covered by any entry. -/
def uncovered (lock : LockFile) (dep : Entry DepSpec) : Bool :=
  match lock.get dep.1 with
  | none => true
  | some entry =>
    match dep.2 with
    | .remote _ versionReq =>
      match Version.fromStr entry.version with
      | .ok v => !versionReq.matches v
      | .error _ => true
    | .path _ => false

def lockCoverageGap (manifest : Manifest) (lock : LockFile) : List String :=
  ((manifest.dependencies.entries.filter (uncovered lock)).map Sigma.fst).mergeSort
    fun a b => decide (a ≤ b)

/-- One turn of the loop in `lock_to_graph`. -/
def readEntry (entry : LockEntry) : Except String ResolvedPackage :=
  match Version.fromStr entry.version with
  | .error e => .error ("kryos.lock: bad version for `" ++ entry.name ++ "`: " ++ e)
  | .ok version => .ok
    { name := entry.name
      version
      source := match stripPrefix "path:".toList entry.source.toList with
        | some path => .path (String.ofList path)
        | none => .remote entry.source
      dependencies := entry.dependencies
      checksum := entry.checksum }

def lockToGraph (lock : LockFile) : Except String ResolvedGraph := do
  return ⟨← lock.packages.mapM readEntry⟩

section Install

variable {δ : Type} (host : Host δ)

/-- A redirect for one package: what is in its way is removed first. -/
def writeDepRedirect (depsDir : Path) (fetched : String × Path) : Fs δ Unit := do
  let linkPath := Path.join depsDir fetched.1.toList
  if ← Fs.look fun d => host.pathExists d linkPath then
    if ← Fs.look fun d => host.isDir d linkPath then
      removeDirAll host linkPath
    else
      Fs.perform (.delete linkPath) fun d => ((), host.removeFile d linkPath)
  let redirect := Path.join depsDir (fetched.1.toList ++ ".redirect".toList)
  let content := "# kryos dep redirect\npath = \"".toList ++ fetched.2 ++ "\"\n".toList
  orFail ("failed to write dep redirect for " ++ fetched.1 ++ ": ")
    (← Fs.perform (.write redirect) fun d => host.writeFile d redirect content)

def writeDepRedirects (fetched : List (String × Path)) : Fs δ Unit := do
  let depsDir := Path.join ".kryos".toList "deps".toList
  orFail "failed to create .kryos/deps/: " (← createDirAll host depsDir)
  let _ ← fetched.mapM (writeDepRedirect host depsDir)

/-- The part of `install_pinned` that gets the packages. -/
def fetchPinned (lock : LockFile) : Fs δ (List (String × Path)) :=
  match lockToGraph lock with
  | .error e => throw e
  | .ok graph => fetchResolved host graph

/-- The packages that are handed to the compiler, through the redirects. -/
def installPinned (lock : LockFile) : Fs δ (List (String × Path)) := do
  let fetched ← fetchPinned host lock
  writeDepRedirects host fetched
  return fetched

end Install

/-! ## Reading entries -/

theorem stripPrefix_eq_some {pre l rest : List Char} :
    stripPrefix pre l = some rest ↔ l = pre ++ rest := by
  rw [stripPrefix]
  constructor
  · intro h
    split at h
    · rename_i hpre
      obtain ⟨t, rfl⟩ := List.isPrefixOf_iff_prefix.mp hpre
      cases h
      simp
    · cases h
  · rintro rfl
    rw [if_pos (List.isPrefixOf_iff_prefix.mpr (List.prefix_append pre rest)), List.drop_left]

/-- A remote source that would be taken for a path once it is written. -/
def LooksLikePath (source : String) : Prop := ∃ path : String, source = "path:" ++ path

/-- The source that an entry is read as. -/
def LockEntry.readSource (entry : LockEntry) : PackageSource :=
  match stripPrefix "path:".toList entry.source.toList with
  | some path => .path (String.ofList path)
  | none => .remote entry.source

theorem stripPrefix_path (source path : String) :
    stripPrefix "path:".toList source.toList = some path.toList ↔ source = "path:" ++ path := by
  rw [stripPrefix_eq_some, ← String.toList_append, String.toList_inj]

variable {entry : LockEntry}

theorem LockEntry.readSource_eq_path {path : String} :
    entry.readSource = .path path ↔ entry.source = "path:" ++ path := by
  rw [← stripPrefix_path, readSource]
  cases h : stripPrefix "path:".toList entry.source.toList with
  | none => simp
  | some rest =>
    rw [PackageSource.path.injEq, Option.some.injEq, ← String.toList_inj, String.toList_ofList]

theorem LockEntry.readSource_eq_remote {source : String} :
    entry.readSource = .remote source ↔ entry.source = source ∧ ¬ LooksLikePath source := by
  rw [readSource]
  cases h : stripPrefix "path:".toList entry.source.toList with
  | none =>
    constructor
    · intro heq
      cases heq
      refine ⟨rfl, ?_⟩
      rintro ⟨path, hpath⟩
      rw [(stripPrefix_path _ path).mpr hpath] at h
      cases h
    · rintro ⟨rfl, -⟩
      rfl
  | some rest =>
    have hsource : entry.source = "path:" ++ String.ofList rest :=
      (stripPrefix_path _ _).mp (by rw [h, String.toList_ofList])
    constructor
    · intro heq
      cases heq
    · rintro ⟨rfl, hnot⟩
      exact absurd ⟨_, hsource⟩ hnot

/-- One entry, read. -/
structure ReadAs (entry : LockEntry) (pkg : ResolvedPackage) : Prop where
  name : pkg.name = entry.name
  version : Version.fromStr entry.version = .ok pkg.version
  source : pkg.source = entry.readSource
  dependencies : pkg.dependencies = entry.dependencies
  checksum : pkg.checksum = entry.checksum

variable {pkg : ResolvedPackage}

theorem readEntry_eq_ok : readEntry entry = .ok pkg ↔ ReadAs entry pkg := by
  rw [readEntry]
  constructor
  · intro h
    cases hv : Version.fromStr entry.version with
    | error e => rw [hv] at h; cases h
    | ok v =>
      rw [hv] at h
      cases h
      exact ⟨rfl, hv, rfl, rfl, rfl⟩
  · intro h
    obtain ⟨name, version, source, dependencies, checksum⟩ := pkg
    obtain ⟨hname, hversion, hsource, hdependencies, hchecksum⟩ := h
    simp only at hname hversion hsource hdependencies hchecksum
    subst hname hsource hdependencies hchecksum
    rw [hversion]
    rfl

variable {lock : LockFile} {graph : ResolvedGraph}

theorem lockToGraph_eq_ok :
    lockToGraph lock = .ok graph ↔ List.Forall₂ ReadAs lock.packages graph.packages := by
  have hread : (fun entry pkg => readEntry entry = .ok pkg) = ReadAs := by
    funext entry pkg
    exact propext readEntry_eq_ok
  rw [← hread, ← List.mapM_eq_ok, lockToGraph]
  cases lock.packages.mapM readEntry with
  | error e => exact ⟨nofun, nofun⟩
  | ok packages =>
    constructor
    · intro h
      cases h
      rfl
    · intro h
      cases h
      rfl

/-! ## The manifest's sources -/

/-- The source that registry packages are given. -/
def registrySource (name : String) (version : Version) : String :=
  "github_subdir:NORTHTEKDevs/kryos-registry/packages/" ++ name ++ "/" ++ version.toString

variable {spec : DepSpec}

namespace DepSpec

/-- The source that the manifest declares for a package: a path, an explicit source, or the
registry. -/
def declaredSource (spec : DepSpec) (name : String) (version : Version) : PackageSource :=
  match spec with
  | .path dir => .path dir
  | .remote source _ => .remote (if source = "" then registrySource name version else source)

def Admits (spec : DepSpec) (version : Version) : Prop :=
  match spec with
  | .path _ => True
  | .remote _ versionReq => versionReq.matches version = true

/-- The text of an entry's source is that of the declared one. -/
def Recorded (spec : DepSpec) (entry : LockEntry) (version : Version) : Prop :=
  match spec with
  | .path dir => entry.source = "path:" ++ dir
  | .remote source _ =>
    entry.source = (if source = "" then registrySource entry.name version else source) ∧
      ¬ LooksLikePath entry.source

theorem readSource_eq_declaredSource {version : Version} :
    entry.readSource = spec.declaredSource entry.name version ↔ spec.Recorded entry version := by
  cases spec with
  | path dir => exact LockEntry.readSource_eq_path
  | remote source versionReq =>
    rw [declaredSource, LockEntry.readSource_eq_remote]
    constructor
    · rintro ⟨hsource, hpath⟩
      exact ⟨hsource, hsource ▸ hpath⟩
    · rintro ⟨hsource, hpath⟩
      exact ⟨hsource, hsource ▸ hpath⟩

end DepSpec

/-- The graph has a package for every dependency of the manifest, in an admitted version and from
the declared source. -/
def Honours (manifest : Manifest) (graph : ResolvedGraph) : Prop :=
  ∀ name spec, manifest.dependencies.lookup name = some spec →
    ∃ pkg ∈ graph.packages, pkg.name = name ∧ spec.Admits pkg.version ∧
      pkg.source = spec.declaredSource name pkg.version

/-- Every dependency that a package lists is a package. -/
def ResolvedGraph.Closed (graph : ResolvedGraph) : Prop :=
  ∀ pkg ∈ graph.packages, ∀ dep ∈ pkg.dependencies, ∃ pkg' ∈ graph.packages, pkg'.name = dep

/-- For every dependency, the entry that was compared with the manifest, or another one with its
name and an admitted version, records the declared source. -/
def LockFile.RecordsSources (lock : LockFile) (manifest : Manifest) : Prop :=
  ∀ name spec, manifest.dependencies.lookup name = some spec →
    ∃ entry ∈ lock.packages, ∃ version, entry.name = name ∧
      Version.fromStr entry.version = .ok version ∧ spec.Recorded entry version ∧
      (lock.get name = some entry ∨ spec.Admits version)

/-- Every dependency that an entry lists is an entry. -/
def LockFile.ListsAll (lock : LockFile) : Prop :=
  ∀ entry ∈ lock.packages, ∀ dep ∈ entry.dependencies, ∃ entry' ∈ lock.packages, entry'.name = dep

theorem lockCoverageGap_eq_nil {manifest : Manifest} :
    lockCoverageGap manifest lock = [] ↔
      ∀ dep ∈ manifest.dependencies.entries, uncovered lock dep = false := by
  rw [← List.length_eq_zero_iff, lockCoverageGap, List.length_mergeSort, List.length_map,
    List.length_eq_zero_iff, List.filter_eq_nil_iff]
  simp

variable {name : String}

theorem not_uncovered_of_gap {manifest : Manifest} (hgap : lockCoverageGap manifest lock = [])
    (hspec : manifest.dependencies.lookup name = some spec) : uncovered lock ⟨name, spec⟩ = false :=
  lockCoverageGap_eq_nil.mp hgap ⟨name, spec⟩ (AList.mem_lookup_iff.mp hspec)

/-- The comparison found an admitted version. -/
theorem admits_of_covered {version : Version} (h : uncovered lock ⟨name, spec⟩ = false)
    (hget : lock.get name = some entry) (hv : Version.fromStr entry.version = .ok version) :
    spec.Admits version := by
  cases spec with
  | path path => trivial
  | remote source versionReq =>
    simpa [uncovered, hget, hv, DepSpec.Admits] using h

/-- **When the graph is the manifest's.** -/
theorem honours_iff {manifest : Manifest} (hgap : lockCoverageGap manifest lock = [])
    (hgraph : lockToGraph lock = .ok graph) :
    Honours manifest graph ↔ lock.RecordsSources manifest := by
  have hread := lockToGraph_eq_ok.mp hgraph
  constructor
  · intro h name spec hspec
    obtain ⟨pkg, hpkg, rfl, hadmits, hsource⟩ := h name spec hspec
    obtain ⟨entry, hentry, hr⟩ := ListRel.exists_mem_left hread hpkg
    rw [hr.source, hr.name] at hsource
    exact ⟨entry, hentry, pkg.version, hr.name.symm, hr.version,
      DepSpec.readSource_eq_declaredSource.mp hsource, .inr hadmits⟩
  · intro h name spec hspec
    obtain ⟨entry, hentry, version, rfl, hv, hrecorded, hadmits⟩ := h name spec hspec
    obtain ⟨pkg, hpkg, hr⟩ := ListRel.exists_mem_right hread hentry
    obtain rfl : version = pkg.version := Except.ok.inj (hv.symm.trans hr.version)
    refine ⟨pkg, hpkg, hr.name, ?_, ?_⟩
    · exact hadmits.elim
        (fun hget => admits_of_covered (not_uncovered_of_gap hgap hspec) hget hv) id
    · rw [hr.source]
      exact DepSpec.readSource_eq_declaredSource.mpr hrecorded

theorem closed_iff (hgraph : lockToGraph lock = .ok graph) : graph.Closed ↔ lock.ListsAll := by
  have hread := lockToGraph_eq_ok.mp hgraph
  constructor
  · intro h entry hentry dep hdep
    obtain ⟨pkg, hpkg, hr⟩ := ListRel.exists_mem_right hread hentry
    obtain ⟨pkg', hpkg', rfl⟩ := h pkg hpkg dep (hr.dependencies ▸ hdep)
    obtain ⟨entry', hentry', hr'⟩ := ListRel.exists_mem_left hread hpkg'
    exact ⟨entry', hentry', hr'.name.symm⟩
  · intro h pkg hpkg dep hdep
    obtain ⟨entry, hentry, hr⟩ := ListRel.exists_mem_left hread hpkg
    obtain ⟨entry', hentry', rfl⟩ := h entry hentry dep (hr.dependencies ▸ hdep)
    obtain ⟨pkg', hpkg', hr'⟩ := ListRel.exists_mem_right hread hentry'
    exact ⟨pkg', hpkg', hr'.name⟩

/-! ## Writing and reading -/

/-- What can be written and read back. -/
structure ResolvedPackage.Writable (pkg : ResolvedPackage) : Prop where
  version : pkg.version.Valid
  source : ∀ source, pkg.source = .remote source → ¬ LooksLikePath source

theorem readAs_entryOf (h : pkg.Writable) : ReadAs (LockFile.entryOf pkg) pkg := by
  refine ⟨rfl, Version.fromStr_toString h.version, ?_, rfl, rfl⟩
  cases hs : pkg.source with
  | remote source =>
    refine (LockEntry.readSource_eq_remote.mpr ⟨?_, h.source source hs⟩).symm
    rw [LockFile.entryOf, hs]
  | path path =>
    refine (LockEntry.readSource_eq_path.mpr ?_).symm
    rw [LockFile.entryOf, hs]

theorem writable_of_readAs (h : ReadAs entry pkg) : pkg.Writable where
  version := Version.valid_of_fromStr h.version
  source := fun _ hs => (LockEntry.readSource_eq_remote.mp (h.source.symm.trans hs)).2

/-- **When a graph survives being written and read.** -/
theorem lockToGraph_fromResolved_iff :
    (∃ graph', lockToGraph (LockFile.fromResolved graph) = .ok graph' ∧
      graph'.packages.Perm graph.packages) ↔ ∀ pkg ∈ graph.packages, pkg.Writable := by
  constructor
  · rintro ⟨graph', hgraph', hperm⟩ pkg hpkg
    obtain ⟨entry, -, hr⟩ :=
      ListRel.exists_mem_left (lockToGraph_eq_ok.mp hgraph') (hperm.mem_iff.mpr hpkg)
    exact writable_of_readAs hr
  · intro h
    have hwritten : List.Forall₂ ReadAs (graph.packages.map LockFile.entryOf) graph.packages := by
      rw [List.forall₂_map_left_iff, List.forall₂_same]
      exact fun pkg hpkg => readAs_entryOf (h pkg hpkg)
    have hsorted : (LockFile.fromResolved graph).packages.Perm
        (graph.packages.map LockFile.entryOf) := List.mergeSort_perm _ _
    -- the entries are in another order, and so are the packages they are read as
    obtain ⟨packages, hread, hperm⟩ :
        Relation.Comp (List.Forall₂ ReadAs) List.Perm (LockFile.fromResolved graph).packages
          graph.packages := by
      rw [List.forall₂_comp_perm_eq_perm_comp_forall₂]
      exact ⟨_, hsorted, hwritten⟩
    exact ⟨⟨packages⟩, lockToGraph_eq_ok.mpr hread, hperm⟩

/-! ## Checksums -/

section Checksums

variable {δ : Type} {host : Host δ}

/-- A checksum that was accepted is recorded, and is that of the content. -/
theorem checksum_of_verified {d : δ} {dest : Path} {expected : Option String} {version : String}
    (h : verifyPackageChecksum host d dest expected name version = .ok ()) :
    ∃ checksum, expected = some checksum ∧
      host.contentChecksum d dest = .ok (String.ofList (trim checksum.toList)) := by
  rw [verifyPackageChecksum] at h
  cases expected with
  | none => cases h
  | some checksum =>
    refine ⟨checksum, rfl, ?_⟩
    simp only [Option.map_some] at h
    split at h
    · cases h
    · cases h
    · rename_i expected _ heq
      cases heq
      split at h
      · cases h
      · rename_i actual hactual
        split at h
        · rename_i htrim
          rw [hactual, ← htrim, String.ofList_toList]
        · cases h

/-- A remote package that was fetched lies in its cache path and was compared with its checksum. -/
theorem fetchPackage_checked {source : String} (hsource : pkg.source = .remote source)
    {r r' : Run δ} {out : String × Path} (h : (fetchPackage host pkg).run.run r = (.ok out, r')) :
    out = (pkg.name, cachePath host pkg.name pkg.version) ∧
      ∃ checksum, pkg.checksum = some checksum ∧
        host.contentChecksum r'.disk (cachePath host pkg.name pkg.version) =
          .ok (String.ofList (trim checksum.toList)) := by
  rw [fetchPackage] at h
  simp only [hsource] at h
  obtain ⟨there, r₁, -, h⟩ := run_bind_eq.mp h
  obtain ⟨r₂, h⟩ := run_unless h
  obtain ⟨verified, r₃, hlook, h⟩ := run_bind_eq.mp h
  cases hlook
  split at h
  · obtain ⟨_, r₄, -, h⟩ := run_bind_eq.mp h
    cases h
  · rename_i hverified
    obtain ⟨rfl, rfl⟩ := run_pure_eq.mp h
    exact ⟨rfl, checksum_of_verified hverified⟩

/-- The package of an entry was compared with the checksum of the entry when it was fetched, which
is after the packages of the entries in front. -/
def CheckedEntry (host : Host δ) (r : Run δ) (before : List LockEntry) (entry : LockEntry)
    (fetched : List (String × Path)) : Prop :=
  ∃ version checksum out r', Version.fromStr entry.version = .ok version ∧
    (entry.name, cachePath host entry.name version) ∈ fetched ∧ entry.checksum = some checksum ∧
    (fetchPinned host ⟨before ++ [entry]⟩).run.run r = (.ok out, r') ∧
    host.contentChecksum r'.disk (cachePath host entry.name version) =
      .ok (String.ofList (trim checksum.toList))

theorem fetchResolved_split {before after : List ResolvedPackage} {r r' : Run δ}
    {fetched : List (String × Path)}
    (h : (fetchResolved host ⟨before ++ pkg :: after⟩).run.run r = (.ok fetched, r')) :
    ∃ front one rest r₁ r₂, fetched = front ++ one :: rest ∧
      (fetchPackage host pkg).run.run r₁ = (.ok one, r₂) ∧
      (fetchResolved host ⟨before ++ [pkg]⟩).run.run r = (.ok (front ++ [one]), r₂) := by
  rw [fetchResolved] at h
  obtain ⟨made, s₁, hmade, h⟩ := run_bind_eq.mp h
  obtain ⟨_, s₂, hok, h⟩ := run_bind_eq.mp h
  obtain ⟨front, tail, r₁, rfl, hfront, htail⟩ := run_mapM_append h
  rw [List.mapM_cons] at htail
  obtain ⟨one, r₂, hone, htail⟩ := run_bind_eq.mp htail
  obtain ⟨rest, r₃, -, hpure⟩ := run_bind_eq.mp htail
  obtain ⟨rfl, -⟩ := run_pure_eq.mp hpure
  refine ⟨front, one, rest, r₁, r₂, rfl, hone, ?_⟩
  rw [fetchResolved]
  refine run_bind_eq.mpr ⟨made, s₁, hmade, run_bind_eq.mpr ⟨_, s₂, hok, ?_⟩⟩
  refine run_mapM_append_eq hfront ?_
  rw [List.mapM_cons]
  exact run_bind_eq.mpr ⟨one, r₂, hone, rfl⟩

/-- **Every remote package was compared** with the checksum of its entry. -/
theorem installPinned_checked {r r' : Run δ} {fetched : List (String × Path)}
    (h : (installPinned host lock).run.run r = (.ok fetched, r')) {before after : List LockEntry}
    (hlock : lock.packages = before ++ entry :: after) (hremote : ¬ LooksLikePath entry.source) :
    CheckedEntry host r before entry fetched := by
  rw [installPinned] at h
  obtain ⟨fetched', r₁, hfetch, h⟩ := run_bind_eq.mp h
  obtain ⟨_, r₂, -, h⟩ := run_bind_eq.mp h
  obtain ⟨rfl, -⟩ := run_pure_eq.mp h
  rw [fetchPinned] at hfetch
  cases hgraph : lockToGraph lock with
  | error e => rw [hgraph] at hfetch; cases hfetch
  | ok graph =>
    rw [hgraph] at hfetch
    have hread := lockToGraph_eq_ok.mp hgraph
    rw [hlock] at hread
    obtain ⟨packages₁, pkg, packages₂, hpackages, hread₁, hr, -⟩ := ListRel.split_left hread
    rw [show graph = ⟨packages₁ ++ pkg :: packages₂⟩ from
      congrArg ResolvedGraph.mk hpackages] at hfetch
    obtain ⟨front, one, rest, r₃, r₄, rfl, hone, hpart⟩ := fetchResolved_split hfetch
    have hsource : pkg.source = .remote entry.source :=
      hr.source.trans (LockEntry.readSource_eq_remote.mpr ⟨rfl, hremote⟩)
    obtain ⟨rfl, checksum, hchecksum, hcontent⟩ := fetchPackage_checked hsource hone
    have hgraph₁ : lockToGraph ⟨before ++ [entry]⟩ = .ok ⟨packages₁ ++ [pkg]⟩ :=
      lockToGraph_eq_ok.mpr (List.rel_append hread₁ (.cons hr .nil))
    rw [hr.name] at hcontent hpart
    have hpinned : fetchPinned host ⟨before ++ [entry]⟩ = fetchResolved host ⟨packages₁ ++ [pkg]⟩ := by
      rw [fetchPinned, hgraph₁]
    have hmem : (entry.name, cachePath host entry.name pkg.version) ∈
        front ++ (pkg.name, cachePath host pkg.name pkg.version) :: rest := by
      rw [hr.name]
      exact List.mem_append_right front List.mem_cons_self
    rw [← hpinned] at hpart
    exact ⟨pkg.version, checksum, _, r₄, hr.version, hmem, hr.checksum.symm.trans hchecksum, hpart,
      hcontent⟩

end Checksums

/-! ## Pinned installs -/

/-- Every remote package that an install hands over was checked. -/
def ChecksumsHold {δ : Type} (host : Host δ) (r : Run δ) (lock : LockFile) : Prop :=
  ∀ fetched r', (installPinned host lock).run.run r = (.ok fetched, r') →
    ∀ before entry after, lock.packages = before ++ entry :: after →
      ¬ LooksLikePath entry.source → CheckedEntry host r before entry fetched

/-- What is written is read back, up to the order of the packages. -/
def RoundTrips (graph : ResolvedGraph) : Prop :=
  ∃ graph', lockToGraph (LockFile.fromResolved graph) = .ok graph' ∧
    graph'.packages.Perm graph.packages

/-- **When a pinned install is the manifest's.** -/
theorem pinned_install_iff {δ : Type} (host : Host δ) (r : Run δ) (manifest : Manifest)
    (lock : LockFile) (graph resolved : ResolvedGraph) (hgap : lockCoverageGap manifest lock = [])
    (hgraph : lockToGraph lock = .ok graph) :
    (Honours manifest graph ∧ graph.Closed ∧ ChecksumsHold host r lock ∧ RoundTrips resolved) ↔
      lock.RecordsSources manifest ∧ lock.ListsAll ∧ ∀ pkg ∈ resolved.packages, pkg.Writable := by
  have hchecked : ChecksumsHold host r lock :=
    fun _ _ hrun _ _ _ hlock hremote => installPinned_checked hrun hlock hremote
  rw [honours_iff hgap hgraph, closed_iff hgraph, ← lockToGraph_fromResolved_iff]
  exact ⟨fun ⟨h₁, h₂, _, h₃⟩ => ⟨h₁, h₂, h₃⟩, fun ⟨h₁, h₂, h₃⟩ => ⟨h₁, h₂, hchecked, h₃⟩⟩

/-- An entry for `http` from the registry. -/
def registryEntry : LockEntry where
  name := "http"
  version := "1.0.0"
  source := "github_subdir:NORTHTEKDevs/kryos-registry/packages/http/1.0.0"
  checksum := some "abc"
  dependencies := []

/-- A manifest with one dependency. -/
def manifestOn (spec : DepSpec) : Manifest where
  version := "0.1.0"
  dependencies := AList.singleton "http" spec

/-- What the entry is read as. -/
def registryPackage : ResolvedPackage where
  name := "http"
  version := ⟨1, 0, 0, none⟩
  source := .remote "github_subdir:NORTHTEKDevs/kryos-registry/packages/http/1.0.0"
  dependencies := []
  checksum := some "abc"

theorem fromStr_registryEntry : Version.fromStr registryEntry.version = .ok ⟨1, 0, 0, none⟩ :=
  Version.fromStr_toString (v := ⟨1, 0, 0, none⟩) ⟨by decide, by decide, by decide, by decide⟩

theorem not_looksLikePath_registryEntry : ¬ LooksLikePath registryEntry.source := by
  rintro ⟨path, hpath⟩
  have hhead : registryEntry.source.toList.head? = some 'p' := by
    rw [hpath, String.toList_append, List.head?_append_of_ne_nil _ (by decide)]
    rfl
  exact absurd hhead (by decide)

theorem readAs_registryEntry : ReadAs registryEntry registryPackage where
  name := rfl
  version := fromStr_registryEntry
  source := (LockEntry.readSource_eq_remote.mpr ⟨rfl, not_looksLikePath_registryEntry⟩).symm
  dependencies := rfl
  checksum := rfl

theorem lockToGraph_registryEntry : lockToGraph ⟨[registryEntry]⟩ = .ok ⟨[registryPackage]⟩ :=
  lockToGraph_eq_ok.mpr (.cons readAs_registryEntry .nil)

theorem lockCoverageGap_registryEntry (source : String) :
    lockCoverageGap (manifestOn (.remote source ⟨.caret, ⟨1, 0, 0, none⟩⟩)) ⟨[registryEntry]⟩ =
      [] := by
  rw [lockCoverageGap_eq_nil]
  intro dep hdep
  obtain rfl := List.mem_singleton.mp hdep
  have hget : LockFile.get ⟨[registryEntry]⟩ "http" = some registryEntry := by decide
  simp only [uncovered, hget, fromStr_registryEntry]
  decide

theorem lookup_manifestOn {spec' : DepSpec}
    (h : (manifestOn spec).dependencies.lookup name = some spec') :
    name = "http" ∧ spec' = spec := by
  have hmem : (⟨name, spec'⟩ : Entry DepSpec) ∈ (manifestOn spec).dependencies.entries :=
    AList.mem_lookup_iff.mp h
  cases List.mem_singleton.mp hmem
  exact ⟨rfl, rfl⟩

theorem pinned_install_iff_http :
    Honours (manifestOn (.remote "" ⟨.caret, ⟨1, 0, 0, none⟩⟩)) ⟨[registryPackage]⟩ ∧
      ResolvedGraph.Closed ⟨[registryPackage]⟩ ∧
      ChecksumsHold obligingHost ⟨(), []⟩ ⟨[registryEntry]⟩ ∧ RoundTrips ⟨[registryPackage]⟩ := by
  refine (pinned_install_iff obligingHost ⟨(), []⟩ _ ⟨[registryEntry]⟩ _ ⟨[registryPackage]⟩
    (lockCoverageGap_registryEntry "") lockToGraph_registryEntry).mpr ⟨?_, ?_, ?_⟩
  · intro name spec hspec
    obtain ⟨rfl, rfl⟩ := lookup_manifestOn hspec
    refine ⟨registryEntry, List.mem_cons_self, ⟨1, 0, 0, none⟩, rfl, fromStr_registryEntry, ?_,
      .inl (by decide)⟩
    exact ⟨by decide, not_looksLikePath_registryEntry⟩
  · intro entry hentry dep hdep
    obtain rfl := List.mem_singleton.mp hentry
    cases hdep
  · intro pkg hpkg
    obtain rfl := List.mem_singleton.mp hpkg
    exact writable_of_readAs readAs_registryEntry

/-- The manifest has come to name a fork, and the lock file is from before. -/
theorem replaced_source_is_ignored :
    lockCoverageGap (manifestOn (.remote "github:me/http" ⟨.caret, ⟨1, 0, 0, none⟩⟩))
        ⟨[registryEntry]⟩ = [] ∧
      lockToGraph ⟨[registryEntry]⟩ = .ok ⟨[registryPackage]⟩ ∧
      ¬ Honours (manifestOn (.remote "github:me/http" ⟨.caret, ⟨1, 0, 0, none⟩⟩))
        ⟨[registryPackage]⟩ := by
  refine ⟨lockCoverageGap_registryEntry _, lockToGraph_registryEntry, fun h => ?_⟩
  obtain ⟨pkg, hpkg, -, -, hsource⟩ := h "http" _ (AList.mem_lookup_iff.mpr (List.mem_singleton_self _))
  obtain rfl := List.mem_singleton.mp hpkg
  exact absurd hsource (by decide)

end Kryos.Package

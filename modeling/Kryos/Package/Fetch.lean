import Kryos.Package.Resolve

/-!
# Fetching packages

Remote packages are cloned into `<cache>/<name>-<version>`, and what lies there is checked against
the recorded checksum before it is used. An explicit source is cloned into a scratch directory
first, since its version is only known from the manifest in it, and moved to its cache path then.

The file system, `git` and the content checksum are given by a `Host` over an arbitrary type of disk
contents. A run keeps the list of the operations that change the disk, failed runs included.
-/

namespace Kryos.Package

/-! ## Paths -/

/-- A Unix path. -/
abbrev Path := List Char

namespace Path

/-- `Path::join`: an absolute path replaces the base. -/
def join (base s : Path) : Path :=
  if s.head? = some '/' then s
  else if base = [] ∨ base.getLast? = some '/' then base ++ s
  else base ++ '/' :: s

/-- `Path::parent`, for a path that does not end in a slash. -/
def parent (p : Path) : Path :=
  (p.reverse.dropWhile (· ≠ '/')).dropWhile (· = '/') |>.reverse

/-- The place a path names: whether it starts at the root, and its components. Empty components and
`.` do not count. -/
def components (p : Path) : Bool × List Path :=
  (p.head? = some '/', (Version.splitAt '/' p).filter fun c => c ≠ [] ∧ c ≠ ['.'])

end Path

/-- `char::is_whitespace`. -/
def isWhitespace (c : Char) : Bool :=
  c.toNat ∈ [0x20, 0x85, 0xA0, 0x1680, 0x2028, 0x2029, 0x202F, 0x205F, 0x3000] ||
    (9 ≤ c.toNat && c.toNat ≤ 13) || (0x2000 ≤ c.toNat && c.toNat ≤ 0x200A)

/-- `str::trim`. -/
def trim (l : List Char) : List Char :=
  ((l.dropWhile isWhitespace).reverse.dropWhile isWhitespace).reverse

/-- `str::strip_prefix`. -/
def stripPrefix (pre l : List Char) : Option (List Char) :=
  if pre.isPrefixOf l then some (l.drop pre.length) else none

/-! ## The host -/

/-- The manifest of a fetched package, as far as it is read. -/
abbrev FetchedManifest := Manifest

/-- What the functions ask of the system. -/
structure Host (δ : Type) where
  /-- `HOME` or `USERPROFILE` -/
  home : Option Path
  tempDir : Path
  processId : ℕ
  pathExists : δ → Path → Bool
  createDirAll : δ → Path → Except String Unit × δ
  removeDirAll : δ → Path → δ
  gitClone : δ → List Char → Path → Except String Unit × δ
  rejectSymlinks : δ → Path → Except String Unit
  copyDirAll : δ → Path → Path → Except String Unit × δ
  rename : δ → Path → Path → Bool × δ
  isDir : δ → Path → Bool
  removeFile : δ → Path → δ
  writeFile : δ → Path → List Char → Except String Unit × δ
  readManifest : δ → Path → Except String FetchedManifest
  contentChecksum : δ → Path → Except String String

/-- The operations that change the disk. -/
inductive FsOp where
  | create (p : Path)
  | write (p : Path)
  | delete (p : Path)
  | move (source dest : Path)
deriving DecidableEq, Repr

/-- The paths that are created, overwritten or deleted. -/
def FsOp.touched : FsOp → List Path
  | create p | write p | delete p => [p]
  | move source dest => [source, dest]

/-- The disk, and what was done to it. -/
structure Run (δ : Type) where
  disk : δ
  log : List FsOp

abbrev Fs (δ : Type) := ExceptT String (StateM (Run δ))

namespace Fs

variable {δ α : Type}

/-- An operation that changes the disk. -/
def perform (op : FsOp) (f : δ → α × δ) : Fs δ α :=
  ExceptT.mk fun r => (.ok (f r.disk).1, { disk := (f r.disk).2, log := r.log ++ [op] })

/-- A look at the disk. -/
def look (f : δ → α) : Fs δ α := ExceptT.mk fun r => (.ok (f r.disk), r)

end Fs

section Functions

variable {δ : Type} (host : Host δ)

def createDirAll (p : Path) : Fs δ (Except String Unit) :=
  Fs.perform (.create p) fun d => host.createDirAll d p

def removeDirAll (p : Path) : Fs δ Unit :=
  Fs.perform (.delete p) fun d => ((), host.removeDirAll d p)

def copyDirAll (source dest : Path) : Fs δ (Except String Unit) :=
  Fs.perform (.write dest) fun d => host.copyDirAll d source dest

/-- Passes an error on with some words in front. -/
def orFail {α : Type} (words : String) : Except String α → Fs δ α
  | .ok a => pure a
  | .error e => throw (words ++ e)

def dirsOrFallback : Path :=
  match host.home with
  | some home => Path.join home ".kryos".toList
  | none => ".kryos".toList

def cacheDir : Path := Path.join (dirsOrFallback host) "packages".toList

/-- `format!("{name}-{version}")`. -/
def cacheKey (name : String) (version : Version) : Path :=
  name.toList ++ '-' :: version.toString.toList

def cachePath (name : String) (version : Version) : Path :=
  Path.join (cacheDir host) (cacheKey name version)

/-- `git clone` into the destination, refused if the result holds a symlink. -/
def cloneAndGuard (url : List Char) (dest : Path) : Fs δ Unit := do
  orFail "git clone failed: " (← Fs.perform (.write dest) fun d => host.gitClone d url dest)
  match ← Fs.look fun d => host.rejectSymlinks d dest with
  | .ok () => return
  | .error e =>
    removeDirAll host dest
    throw ("refusing package: " ++ e)

/-- The scratch directory of `fetch_github_subdir`. -/
def subdirScratch (repo : List Char) : Path :=
  Path.join host.tempDir
    ("kryos-fetch-".toList ++ repo ++ '-' :: (toString host.processId).toList)

/-- `spec` is `org/repo/sub/path`. -/
def fetchGithubSubdir (spec : List Char) (dest : Path) : Fs δ Unit := do
  match Version.splitAt '/' spec with
  | org :: repo :: first :: rest =>
    let subpath := List.intercalate ['/'] (first :: rest)
    let url := "https://github.com/".toList ++ org ++ '/' :: repo ++ ".git".toList
    let tmp := subdirScratch host repo
    if ← Fs.look fun d => host.pathExists d tmp then
      removeDirAll host tmp
    match ← Fs.perform (.write tmp) fun d => host.gitClone d url tmp with
    | .error e =>
      removeDirAll host tmp
      throw ("git clone failed: " ++ e)
    | .ok () =>
      let source := Path.join tmp subpath
      unless ← Fs.look fun d => host.pathExists d source do
        removeDirAll host tmp
        throw ("subdir not found in cloned repo: " ++ String.ofList subpath)
      orFail "mkdir failed: " (← createDirAll host (Path.parent dest))
      let copied ← copyDirAll host source dest
      removeDirAll host tmp
      orFail "copy failed: " copied
  | _ => throw ("github_subdir source needs org/repo/subpath, got: " ++ String.ofList spec)

/-- `str::trim_end_matches('/')`. -/
def trimSlashes (l : List Char) : List Char := (l.reverse.dropWhile (· = '/')).reverse

def fetchGithub (source : String) (dest : Path) : Fs δ Unit :=
  match stripPrefix "github_subdir:".toList source.toList with
  | some spec => fetchGithubSubdir host spec dest
  | none =>
    match stripPrefix "github:".toList source.toList with
    | some gh => cloneAndGuard host ("https://github.com/".toList ++ gh ++ ".git".toList) dest
    | none =>
      if "https://".toList.isPrefixOf source.toList || "http://".toList.isPrefixOf source.toList then
        let url := trimSlashes source.toList
        cloneAndGuard host
          (if ".git".toList.isSuffixOf url then url else url ++ ".git".toList) dest
      else throw ("unsupported package source: " ++ source)

/-- A missing or blank checksum is refused like a wrong one. -/
def verifyPackageChecksum (d : δ) (dest : Path) (expected : Option String) (name version : String) :
    Except String Unit :=
  match expected.map (fun c => trim c.toList) with
  | none | some [] =>
    .error ("refusing to install `" ++ name ++ "` v" ++ version ++ ": no checksum is recorded for "
      ++ "this package in the registry index. An unverifiable package cannot be trusted -- run "
      ++ "`kryos pkg sync` to refresh the index, or report this to the registry maintainer if the "
      ++ "entry is genuinely missing a checksum.")
  | some expected =>
    match host.contentChecksum d dest with
    | .error e => .error e
    | .ok actual =>
      if actual.toList = expected then .ok ()
      else .error ("checksum mismatch for `" ++ name ++ "` v" ++ version ++ ": expected "
        ++ String.ofList expected ++ ", got " ++ actual ++ ". The fetched content does not match "
        ++ "the registry index -- refusing to install. (The tainted cache entry has been removed. "
        ++ "This can mean registry tampering, a force-pushed history, a corrupted download, or a "
        ++ "non-reproducible publish.)")

/-- One package of `fetch_resolved`: its name and where the compiler finds it. -/
def fetchPackage (pkg : ResolvedPackage) : Fs δ (String × Path) := do
  match pkg.source with
  | .remote source =>
    let dest := cachePath host pkg.name pkg.version
    unless ← Fs.look fun d => host.pathExists d dest do
      tryCatch (fetchGithub host source dest) fun e => do
        -- a failed fetch can leave a partly copied directory behind
        removeDirAll host dest
        throw e
    match ← Fs.look fun d =>
        verifyPackageChecksum host d dest pkg.checksum pkg.name pkg.version.toString with
    | .error e =>
      removeDirAll host dest
      throw e
    | .ok () => return (pkg.name, dest)
  | .path path => return (pkg.name, path.toList)

def fetchResolved (graph : ResolvedGraph) : Fs δ (List (String × Path)) := do
  orFail "failed to create cache dir: " (← createDirAll host (cacheDir host))
  graph.packages.mapM (fetchPackage host)

/-- What is known of an explicit source once it is fetched. -/
structure ExplicitFetch where
  version : Version
  dest : Path
  checksum : String
  dependencies : HashMap DepSpec

/-- The part of `finish_explicit_fetch` that reads the fetched content. -/
def readFetched (localName source : String) (versionReq : VersionReq) (tmp : Path) (d : δ) :
    Except String (FetchedManifest × Version × String) := do
  let manifest ←
    match host.readManifest d (Path.join tmp "kryos.toml".toList) with
    | .ok m => .ok m
    | .error e => .error ("explicit source `" ++ source ++ "` for `" ++ localName
        ++ "` does not contain a valid kryos.toml at its root: " ++ e)
  let version ←
    match Version.fromStr manifest.version with
    | .ok v => .ok v
    | .error e => .error ("explicit source `" ++ source ++ "` for `" ++ localName
        ++ "` has an invalid version `" ++ manifest.version ++ "`: " ++ e)
  if !versionReq.matches version then
    .error ("explicit source `" ++ source ++ "` for `" ++ localName ++ "` resolved to v"
      ++ version.toString ++ ", which does not satisfy the declared requirement `"
      ++ versionReq.toString ++ "`")
  let checksum ← host.contentChecksum d tmp
  return (manifest, version, checksum)

/-- Moves the scratch clone to its cache path. -/
def installFetched (localName : String) (tmp dest : Path) : Fs δ Unit := do
  if ← Fs.look fun d => host.pathExists d dest then
    removeDirAll host dest
  let _ ← createDirAll host (Path.parent dest)
  unless ← Fs.perform (.move tmp dest) fun d => host.rename d tmp dest do
    match ← copyDirAll host tmp dest with
    | .error e =>
      removeDirAll host tmp
      removeDirAll host dest
      throw ("failed to install fetched package `" ++ localName ++ "`: " ++ e)
    | .ok () => removeDirAll host tmp

def finishExplicitFetch (localName source : String) (versionReq : VersionReq) (tmp : Path) :
    Fs δ ExplicitFetch := do
  orFail "failed to create cache dir: " (← createDirAll host (cacheDir host))
  match ← Fs.look fun d => readFetched host localName source versionReq tmp d with
  | .error e =>
    removeDirAll host tmp
    throw e
  | .ok (manifest, version, checksum) =>
    let dest := cachePath host localName version
    installFetched host localName tmp dest
    return { version, dest, checksum, dependencies := manifest.dependencies }

end Functions

/-- A host on which everything succeeds. -/
def obligingHost : Host Unit where
  home := some "/home/user".toList
  tempDir := "/tmp".toList
  processId := 7
  pathExists _ _ := false
  createDirAll _ _ := (.ok (), ())
  removeDirAll _ _ := ()
  gitClone _ _ _ := (.ok (), ())
  rejectSymlinks _ _ := .ok ()
  copyDirAll _ _ _ := (.ok (), ())
  rename _ _ _ := (true, ())
  isDir _ _ := false
  removeFile _ _ := ()
  writeFile _ _ _ := (.ok (), ())
  readManifest _ _ := .ok { version := "2.1.0", dependencies := ∅ }
  contentChecksum _ _ := .ok "abc"

end Kryos.Package

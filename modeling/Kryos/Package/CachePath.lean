import Kryos.Lib.StateInvariant
import Kryos.Package.Fetch
import Kryos.Package.VersionText

/-!
# The package cache

What fetching does to the disk stays at three kinds of places: the cache directory itself, the
scratch directory that a clone goes to first, and the cache path of a package. A cache path is the
name, a dash and the version behind the cache directory. It is a direct child of the cache directory
if neither text has a slash in it; nothing on the way to `fetchResolved` looks for one.

A dash may be part of a name and of a pre-release, so the dash between the two is not always to be
told: two packages share their path exactly if a piece of text moves from one to the other.

## Main results

* `fetchResolved_touched`, `finishExplicitFetch_touched` — the places
* `directChild_cachePath` — a cache path without slashes
* `cachePath_eq_iff` — two packages with one path
-/

namespace Kryos.Package

open StateInvariant

/-! ## Paths -/

/-- The path names an entry of the directory. -/
def DirectChild (dir p : Path) : Prop :=
  ∃ entry, entry ≠ ['.', '.'] ∧
    p.components = (dir.components.1, dir.components.2 ++ [entry])

/-- A text that is one component, and not a special one. -/
structure IsEntry (s : List Char) : Prop where
  noSlash : '/' ∉ s
  ne_nil : s ≠ []
  ne_dot : s ≠ ['.']
  ne_dots : s ≠ ['.', '.']

section

variable {s : List Char} {dir : Path} (h : IsEntry s) (hdir : dir ≠ [])
  (hlast : dir.getLast? ≠ some '/')

include h hdir hlast

theorem IsEntry.join_eq : Path.join dir s = dir ++ '/' :: s := by
  have hhead : s.head? ≠ some '/' := fun hh => h.noSlash (List.mem_of_head? hh)
  rw [Path.join, if_neg hhead, if_neg (not_or.mpr ⟨hdir, hlast⟩)]

theorem IsEntry.components_join :
    (Path.join dir s).components = (dir.components.1, dir.components.2 ++ [s]) := by
  rw [h.join_eq hdir hlast]
  refine Prod.ext ?_ ?_
  · show decide ((dir ++ '/' :: s).head? = some '/') = decide (dir.head? = some '/')
    rw [List.head?_append_of_ne_nil _ hdir]
  · show ((Version.splitAt '/' (dir ++ '/' :: s)).filter _) = _
    rw [splitAt_append_sep, List.filter_append, splitAt_of_not_mem h.noSlash]
    simp [h.ne_nil, h.ne_dot, Path.components]

theorem IsEntry.parent_join : Path.parent (Path.join dir s) = dir := by
  have hs : ∀ c ∈ s.reverse, decide (c ≠ '/') = true := by
    intro c hc
    exact decide_eq_true fun heq => h.noSlash (heq ▸ List.mem_reverse.mp hc)
  have hrev : (dir ++ '/' :: s).reverse = s.reverse ++ '/' :: dir.reverse := by simp
  rw [h.join_eq hdir hlast, Path.parent, hrev, List.dropWhile_append_of_pos hs,
    List.dropWhile_cons_of_neg (by simp), List.dropWhile_cons_of_pos (by simp)]
  obtain ⟨c, hc⟩ : ∃ c, dir.reverse.head? = some c := by
    cases hr : dir.reverse with
    | nil => exact absurd (List.reverse_eq_nil_iff.mp hr) hdir
    | cons c l => exact ⟨c, rfl⟩
  have hne : c ≠ '/' := fun heq => hlast (by rw [List.getLast?_eq_head?_reverse, hc, heq])
  obtain ⟨l, hl⟩ : ∃ l, dir.reverse = c :: l := List.head?_eq_some_iff.mp hc
  rw [hl, List.dropWhile_cons_of_neg (by simpa using hne), ← hl, List.reverse_reverse]

end

/-! ## Cache paths -/

/-- Neither text can leave the directory. -/
structure NoSlashes (name : String) (version : Version) : Prop where
  name : '/' ∉ name.toList
  version : '/' ∉ version.toString.toList

variable {δ : Type} (host : Host δ)

theorem cacheDir_eq : ∃ front, cacheDir host = front ++ "packages".toList := by
  rw [cacheDir, Path.join, if_neg (by decide)]
  split
  · exact ⟨_, rfl⟩
  · exact ⟨dirsOrFallback host ++ ['/'], (List.append_assoc _ ['/'] _).symm⟩

theorem cacheDir_ne_nil : cacheDir host ≠ [] := by
  obtain ⟨front, hfront⟩ := cacheDir_eq host
  rw [hfront]
  exact List.append_ne_nil_of_right_ne_nil front (by decide)

theorem getLast?_cacheDir : (cacheDir host).getLast? ≠ some '/' := by
  obtain ⟨front, hfront⟩ := cacheDir_eq host
  rw [hfront, List.getLast?_append_of_ne_nil front (by decide)]
  decide

variable {name : String} {version : Version}

theorem isEntry_cacheKey (h : NoSlashes name version) : IsEntry (cacheKey name version) where
  noSlash := by simp [cacheKey, h.name, h.version]
  ne_nil := by simp [cacheKey]
  -- a dash is in the text, so it is neither `.` nor `..`
  ne_dot := fun heq => by
    have hdash : '-' ∈ cacheKey name version := by simp [cacheKey]
    simp [heq] at hdash
  ne_dots := fun heq => by
    have hdash : '-' ∈ cacheKey name version := by simp [cacheKey]
    simp [heq] at hdash

variable {host}

theorem components_cachePath (h : NoSlashes name version) :
    (cachePath host name version).components =
      ((cacheDir host).components.1, (cacheDir host).components.2 ++ [cacheKey name version]) :=
  (isEntry_cacheKey h).components_join (cacheDir_ne_nil host) (getLast?_cacheDir host)

/-- **A cache path without slashes** is an entry of the cache directory. -/
theorem directChild_cachePath (h : NoSlashes name version) :
    DirectChild (cacheDir host) (cachePath host name version) :=
  ⟨cacheKey name version, (isEntry_cacheKey h).ne_dots, components_cachePath h⟩

theorem parent_cachePath (h : NoSlashes name version) :
    Path.parent (cachePath host name version) = cacheDir host :=
  (isEntry_cacheKey h).parent_join (cacheDir_ne_nil host) (getLast?_cacheDir host)

/-- `-moved` goes from the end of one name to the front of the other version. -/
def Shifted (name : String) (version : Version) (name' : String) (version' : Version) : Prop :=
  ∃ moved : List Char, name'.toList = name.toList ++ '-' :: moved ∧
    version.toString.toList = moved ++ '-' :: version'.toString.toList

theorem cacheKey_eq_iff {name' : String} {version' : Version} (hv : version.Valid)
    (hv' : version'.Valid) :
    cacheKey name version = cacheKey name' version' ↔
      (name = name' ∧ version = version') ∨ Shifted name version name' version' ∨
        Shifted name' version' name version := by
  constructor
  · intro heq
    rw [cacheKey, cacheKey, List.append_eq_append_iff] at heq
    rcases heq with ⟨tail, hname, hrest⟩ | ⟨tail, hname, hrest⟩
    · cases tail with
      | nil =>
        have hn : name' = name := String.toList_inj.mp (by simpa using hname)
        have ht : version.toString = version'.toString :=
          String.toList_inj.mp (by simpa using hrest)
        exact .inl ⟨hn.symm, Version.toString_injective hv hv' ht⟩
      | cons c moved =>
        rw [List.cons_append, List.cons.injEq] at hrest
        exact .inr (.inl ⟨moved, by rw [hname, hrest.1], hrest.2⟩)
    · cases tail with
      | nil =>
        have hn : name = name' := String.toList_inj.mp (by simpa using hname)
        have ht : version'.toString = version.toString :=
          String.toList_inj.mp (by simpa using hrest)
        exact .inl ⟨hn, (Version.toString_injective hv' hv ht).symm⟩
      | cons c moved =>
        rw [List.cons_append, List.cons.injEq] at hrest
        exact .inr (.inr ⟨moved, by rw [hname, hrest.1], hrest.2⟩)
  · rintro (⟨rfl, rfl⟩ | ⟨moved, hname, hversion⟩ | ⟨moved, hname, hversion⟩)
    · rfl
    · rw [cacheKey, cacheKey, hname, hversion, List.append_assoc, List.cons_append]
    · rw [cacheKey, cacheKey, hname, hversion, List.append_assoc, List.cons_append]

/-- **Two packages with one cache path.** Paths are equal when they name the same place. -/
theorem cachePath_eq_iff {name' : String} {version' : Version} (h : NoSlashes name version)
    (h' : NoSlashes name' version') (hv : version.Valid) (hv' : version'.Valid) :
    (cachePath host name version).components = (cachePath host name' version').components ↔
      (name = name' ∧ version = version') ∨ Shifted name version name' version' ∨
        Shifted name' version' name version := by
  rw [← cacheKey_eq_iff hv hv']
  rw [components_cachePath h, components_cachePath h', Prod.mk.injEq, List.append_cancel_left_eq]
  simp

/-! ## What is touched -/

/-- The paths that a run created, overwrote or deleted. -/
def Run.touched (r : Run δ) : List Path := r.log.flatMap FsOp.touched

/-- Only paths with `P` were touched. -/
def Confined (P : Path → Prop) (r : Run δ) : Prop := ∀ p ∈ r.touched, P p

variable {source localName : String}

section Confined

variable {P : Path → Prop} {α : Type}

theorem keeps_perform {op : FsOp} {f : δ → α × δ} (h : ∀ p ∈ op.touched, P p) :
    Keeps (Confined P) (Fs.perform op f) := by
  intro r hr p hp
  have hlog : p ∈ (r.log ++ [op]).flatMap FsOp.touched := hp
  rw [List.flatMap_append, List.mem_append, List.flatMap_singleton] at hlog
  exact hlog.elim (hr p) (h p)

theorem keeps_look (f : δ → α) : Keeps (Confined P) (Fs.look f : Fs δ α) :=
  fun _ hr => hr

/-- What follows a look may rely on what was seen. -/
theorem keeps_look_bind {β : Type} {f : δ → α} {g : α → Fs δ β}
    (h : ∀ d, Keeps (Confined P) (g (f d))) : Keeps (Confined P) (Fs.look f >>= g) :=
  fun r hr => h r.disk r hr

theorem keeps_orFail (words : String) (e : Except String α) :
    Keeps (Confined P) (orFail words e : Fs δ α) := by
  cases e with
  | error e => exact keeps_throw _
  | ok a => exact keeps_pure a

theorem keeps_createDirAll {p : Path} (h : P p) : Keeps (Confined P) (createDirAll host p) :=
  keeps_perform (by simpa [FsOp.touched] using h)

theorem keeps_removeDirAll {p : Path} (h : P p) : Keeps (Confined P) (removeDirAll host p) :=
  keeps_perform (by simpa [FsOp.touched] using h)

theorem keeps_copyDirAll {source dest : Path} (h : P dest) :
    Keeps (Confined P) (copyDirAll host source dest) :=
  keeps_perform (by simpa [FsOp.touched] using h)

theorem keeps_cloneAndGuard {url : List Char} {dest : Path} (h : P dest) :
    Keeps (Confined P) (cloneAndGuard host url dest) := by
  refine keeps_bind (keeps_perform (by simpa [FsOp.touched] using h)) fun cloned =>
    keeps_bind (keeps_orFail _ _) fun _ => keeps_bind (keeps_look _) fun checked => ?_
  cases checked with
  | ok u => exact keeps_pure _
  | error e => exact keeps_bind (keeps_removeDirAll h) fun _ => keeps_throw _

section

variable {dest : Path} (h : P dest) (hparent : P (Path.parent dest))
  (hscratch : ∀ repo, '/' ∉ repo → P (subdirScratch host repo))

include h hparent hscratch

theorem keeps_fetchGithubSubdir {spec : List Char} :
    Keeps (Confined P) (fetchGithubSubdir host spec dest) := by
  rw [fetchGithubSubdir]
  split
  · rename_i org repo first rest hsplit
    have hrepo : '/' ∉ repo :=
      sep_not_mem_of_mem_splitAt (by rw [hsplit]; exact List.mem_cons_of_mem _ List.mem_cons_self)
    have htmp := hscratch repo hrepo
    refine keeps_bind (keeps_look _) fun there => keeps_when (keeps_removeDirAll htmp) fun _ =>
      keeps_bind (keeps_perform (by simpa [FsOp.touched] using htmp)) fun cloned => ?_
    cases cloned with
    | error e => exact keeps_bind (keeps_removeDirAll htmp) fun _ => keeps_throw _
    | ok u =>
      refine keeps_bind (keeps_look _) fun found =>
        keeps_ite (fun _ => ?_) fun _ =>
          keeps_bind (keeps_removeDirAll htmp) fun _ => keeps_throw_bind _ _
      exact keeps_bind (keeps_createDirAll hparent) fun made =>
        keeps_bind (keeps_orFail _ _) fun _ => keeps_bind (keeps_copyDirAll h) fun copied =>
          keeps_bind (keeps_removeDirAll htmp) fun _ => keeps_orFail _ _
  · exact keeps_throw _

theorem keeps_fetchGithub : Keeps (Confined P) (fetchGithub host source dest) := by
  rw [fetchGithub]
  split
  · exact keeps_fetchGithubSubdir h hparent hscratch
  · split
    · exact keeps_cloneAndGuard h
    · exact keeps_ite (fun _ => keeps_cloneAndGuard h) fun _ => keeps_throw _

end

theorem keeps_fetchPackage {pkg : ResolvedPackage}
    (h : P (cachePath host pkg.name pkg.version))
    (hparent : P (Path.parent (cachePath host pkg.name pkg.version)))
    (hscratch : ∀ repo, '/' ∉ repo → P (subdirScratch host repo)) :
    Keeps (Confined P) (fetchPackage host pkg) := by
  rw [fetchPackage]
  split
  · refine keeps_bind (keeps_look _) fun there => keeps_unless ?_ fun _ =>
      keeps_bind (keeps_look _) fun verified => ?_
    · exact keeps_tryCatch (keeps_fetchGithub h hparent hscratch) fun e =>
        keeps_bind (keeps_removeDirAll h) fun _ => keeps_throw e
    · cases verified with
      | error e => exact keeps_bind (keeps_removeDirAll h) fun _ => keeps_throw e
      | ok u => exact keeps_pure _
  · exact keeps_pure _

theorem keeps_installFetched {tmp dest : Path} (h : P dest) (hparent : P (Path.parent dest))
    (htmp : P tmp) : Keeps (Confined P) (installFetched host localName tmp dest) := by
  have hboth : ∀ p ∈ (FsOp.move tmp dest).touched, P p := by simp [FsOp.touched, h, htmp]
  refine keeps_bind (keeps_look _) fun there => keeps_when (keeps_removeDirAll h) fun _ =>
    keeps_bind (keeps_createDirAll hparent) fun _ => keeps_bind (keeps_perform hboth) fun moved =>
      keeps_ite (fun _ => keeps_pure _) fun _ =>
        keeps_bind (keeps_copyDirAll h) fun copied => ?_
  cases copied with
  | error e =>
    exact keeps_bind (keeps_removeDirAll htmp) fun _ =>
      keeps_bind (keeps_removeDirAll h) fun _ => keeps_throw _
  | ok u => exact keeps_removeDirAll htmp

end Confined

/-! ## The functions -/

/-- The places of `fetch_resolved`: the cache directory, a scratch clone, a package of the graph. -/
def FetchPlace (host : Host δ) (graph : ResolvedGraph) (p : Path) : Prop :=
  p = cacheDir host ∨ (∃ repo, '/' ∉ repo ∧ p = subdirScratch host repo) ∨
    ∃ pkg ∈ graph.packages,
      p = cachePath host pkg.name pkg.version ∧ DirectChild (cacheDir host) p

theorem fetchResolved_touched {graph : ResolvedGraph}
    (hgraph : ∀ pkg ∈ graph.packages, NoSlashes pkg.name pkg.version) (d : δ) :
    ∀ p ∈ ((fetchResolved host graph).run.run ⟨d, []⟩).2.touched, FetchPlace host graph p := by
  have hkeeps : Keeps (Confined (FetchPlace host graph)) (fetchResolved host graph) := by
    refine keeps_bind (keeps_createDirAll (.inl rfl)) fun made =>
      keeps_bind (keeps_orFail _ _) fun _ => keeps_mapM fun pkg hpkg => ?_
    have hplain := hgraph pkg hpkg
    refine keeps_fetchPackage ?_ ?_ fun repo hrepo => .inr (.inl ⟨repo, hrepo, rfl⟩)
    · exact .inr (.inr ⟨pkg, hpkg, rfl, directChild_cachePath hplain⟩)
    · exact .inl (parent_cachePath hplain)
  exact hkeeps _ nofun

/-- A package that is read has the version its manifest gives. -/
theorem fromStr_of_readFetched {versionReq : VersionReq} {tmp : Path} {d : δ} {m : FetchedManifest}
    {checksum : String}
    (h : readFetched host localName source versionReq tmp d = .ok (m, version, checksum)) :
    host.readManifest d (Path.join tmp "kryos.toml".toList) = .ok m ∧
      Version.fromStr m.version = .ok version := by
  rw [readFetched] at h
  generalize Path.join tmp "kryos.toml".toList = toml at h ⊢
  cases hm : host.readManifest d toml with
  | error e =>
    rw [hm] at h
    exact nomatch h
  | ok m' =>
    rw [hm] at h
    cases hv : Version.fromStr m'.version with
    | error e =>
      simp only [hv, bind, Except.bind] at h
      exact nomatch h
    | ok v =>
      simp only [hv, bind, Except.bind] at h
      split at h
      · exact nomatch h
      · cases hc : host.contentChecksum d tmp with
        | error e =>
          simp only [hc] at h
          exact nomatch h
        | ok c =>
          simp only [hc] at h
          cases h
          exact ⟨rfl, hv⟩

/-- The places of `finish_explicit_fetch`. -/
def ExplicitPlace (host : Host δ) (localName : String) (tmp p : Path) : Prop :=
  p = cacheDir host ∨ p = tmp ∨
    ∃ version, p = cachePath host localName version ∧ DirectChild (cacheDir host) p

theorem finishExplicitFetch_touched {versionReq : VersionReq} {tmp : Path}
    (hversion : ∀ d m version, host.readManifest d (Path.join tmp "kryos.toml".toList) = .ok m →
      Version.fromStr m.version = .ok version → NoSlashes localName version) (d : δ) :
    ∀ p ∈ ((finishExplicitFetch host localName source versionReq tmp).run.run ⟨d, []⟩).2.touched,
      ExplicitPlace host localName tmp p := by
  have hkeeps : Keeps (Confined (ExplicitPlace host localName tmp))
      (finishExplicitFetch host localName source versionReq tmp) := by
    refine keeps_bind (keeps_createDirAll (.inl rfl)) fun made =>
      keeps_bind (keeps_orFail _ _) fun _ => keeps_look_bind fun d => ?_
    cases hread : readFetched host localName source versionReq tmp d with
    | error e => exact keeps_bind (keeps_removeDirAll (.inr (.inl rfl))) fun _ => keeps_throw e
    | ok found =>
      obtain ⟨m, version, checksum⟩ := found
      obtain ⟨hm, hv⟩ := fromStr_of_readFetched hread
      have hplain := hversion d m version hm hv
      refine keeps_bind (keeps_installFetched ?_ ?_ (.inr (.inl rfl))) fun _ => keeps_pure _
      · exact .inr (.inr ⟨version, rfl, directChild_cachePath hplain⟩)
      · exact .inl (parent_cachePath hplain)
  exact hkeeps _ nofun

/-- **The cache is confined, and paths are shared only by a shift.** -/
theorem cache_confined_and_injective (host : Host δ) (d : δ) (graph : ResolvedGraph)
    (hgraph : ∀ pkg ∈ graph.packages, NoSlashes pkg.name pkg.version)
    (localName source : String) (versionReq : VersionReq) (tmp : Path)
    (hversion : ∀ d m version, host.readManifest d (Path.join tmp "kryos.toml".toList) = .ok m →
      Version.fromStr m.version = .ok version → NoSlashes localName version) :
    (∀ p ∈ ((fetchResolved host graph).run.run ⟨d, []⟩).2.touched, FetchPlace host graph p) ∧
    (∀ p ∈ ((finishExplicitFetch host localName source versionReq tmp).run.run ⟨d, []⟩).2.touched,
      ExplicitPlace host localName tmp p) ∧
    ∀ name version name' version', NoSlashes name version → NoSlashes name' version' →
      version.Valid → version'.Valid →
      (cachePath host name version).components = (cachePath host name' version').components →
      (name = name' ∧ version = version') ∨ Shifted name version name' version' ∨
        Shifted name' version' name version :=
  ⟨fetchResolved_touched hgraph d, finishExplicitFetch_touched hversion d,
    fun _ _ _ _ h h' hv hv' heq => (cachePath_eq_iff h h' hv hv').mp heq⟩

/-- A package of the registry kind. -/
def clonedPackage (name : String) : ResolvedPackage :=
  { name, version := ⟨1, 0, 0, none⟩, source := .remote "github:org/repo", dependencies := [],
    checksum := some "abc" }

theorem cache_confined_and_injective_http :
    (∀ pkg ∈ [clonedPackage "http"], NoSlashes pkg.name pkg.version) ∧
    ∀ p ∈ ((fetchResolved obligingHost ⟨[clonedPackage "http"]⟩).run.run ⟨(), []⟩).2.touched,
      FetchPlace obligingHost ⟨[clonedPackage "http"]⟩ p := by
  have hgraph : ∀ pkg ∈ [clonedPackage "http"], NoSlashes pkg.name pkg.version := by
    intro pkg hpkg
    rw [List.mem_singleton.mp hpkg]
    exact ⟨by decide, by decide⟩
  refine ⟨hgraph, (cache_confined_and_injective obligingHost () ⟨[clonedPackage "http"]⟩ hgraph
    "json" "github:org/json" ⟨.exact, ⟨2, 1, 0, none⟩⟩ "/tmp/scratch".toList ?_).1⟩
  rintro d m version hm hv
  cases hm
  have hread : Version.fromStr "2.1.0" = .ok ⟨2, 1, 0, none⟩ :=
    Version.fromStr_toString (v := ⟨2, 1, 0, none⟩) ⟨by decide, by decide, by decide, by decide⟩
  rw [← Except.ok.inj (hread.symm.trans hv)]
  exact ⟨by decide, by decide⟩

/-- The cache directory itself is created; a name with `..` in it leads out of it; and two packages
share a path. -/
theorem cache_not_confined_not_injective :
    (cacheDir obligingHost ∈ ((fetchResolved obligingHost ⟨[]⟩).run.run ⟨(), []⟩).2.touched ∧
      ¬ DirectChild (cacheDir obligingHost) (cacheDir obligingHost)) ∧
    ("/home/user/.kryos/packages/../../evil-1.0.0".toList ∈
        ((fetchResolved obligingHost ⟨[clonedPackage "../../evil"]⟩).run.run ⟨(), []⟩).2.touched ∧
      ¬ DirectChild (cacheDir obligingHost)
        "/home/user/.kryos/packages/../../evil-1.0.0".toList) ∧
    cachePath obligingHost "a" ⟨1, 0, 0, some "1.0.0"⟩ =
      cachePath obligingHost "a-1.0.0" ⟨1, 0, 0, none⟩ := by
  refine ⟨⟨by decide, ?_⟩, ⟨by decide +kernel, ?_⟩, by decide +kernel⟩
  · rintro ⟨entry, -, heq⟩
    simpa using congrArg (fun c => c.2.length) heq
  · rintro ⟨entry, -, heq⟩
    have hlen := congrArg (fun c => c.2.length) heq
    rw [List.length_append, List.length_singleton] at hlen
    revert hlen
    decide

end Kryos.Package

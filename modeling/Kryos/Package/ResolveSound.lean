import Kryos.Lib.FallibleLoop
import Kryos.Package.Resolve
import Mathlib.Data.Finset.Card
import Mathlib.Data.List.Nodup
import Mathlib.Logic.Relation

/-!
# Soundness of dependency resolution

The table of resolved packages is read as a derivation: a registry package is added on top of a
table in which its requirements are met already, a path dependency on top of any table. That alone
gives the requirements of registry packages and the absence of cycles among them. Path dependencies
are the other half: the resolver goes into the manifest of a path root unless the name is resolved,
and it never goes into the manifest of a path dependency of a path root.

## Main results

* `resolve_sound_and_total` — resolution ends without a panic and a graph it returns meets every
  requirement, when the manifests it skips have none and registry requirements on path dependencies
  admit their versions
* `skipped_manifest_and_failed_unwrap` — without that, both go wrong
-/

namespace Kryos.Package

section

variable (disk : Disk) (registry : PackageRegistry) (roots : List (Entry DepSpec))

/-- The table has a version of `name` that `req` admits. -/
def Satisfied (table : List (Entry ResolvedPackage)) (name : String) (req : VersionReq) : Prop :=
  ∃ e ∈ table, e.1 = name ∧ req.matches e.2.version

/-- The tables that resolution builds, latest entry first. -/
inductive Built : List (Entry ResolvedPackage) → Prop
  | nil : Built []
  | path {name path : String} {deps : List String} {table : List (Entry ResolvedPackage)} :
      Built table → Demanded disk registry roots name (.path path) →
      Built (⟨name, .ofPath name path (readPathDepInfo disk name path).1 deps⟩ :: table)
  | remote {name source : String} {req : VersionReq} {pkg : AvailablePackage} {deps : List String}
      {table : List (Entry ResolvedPackage)} :
      Built table → Demanded disk registry roots name (.remote source req) →
      registry.findBestMatch name req = some pkg → deps.Perm pkg.dependencies.keys →
      (∀ dep ∈ pkg.dependencies.entries, Satisfied table dep.1 dep.2) →
      Built (⟨name, .ofRegistry name pkg deps⟩ :: table)

/-- The invariant of a resolution from `roots`. -/
structure Consistent (s : Resolver) : Prop where
  built : Built disk registry roots s.resolved.entries
  /-- the position of a name under way can be found on the stack -/
  stacked : ∀ n ∈ s.visiting, n ∈ s.visitStack
  /-- a resolved registry package has a recorded requirement -/
  constrained : ∀ e ∈ s.resolved.entries, (∃ source, e.2.source = .remote source) →
    e.1 ∈ s.versionConstraints

end

/-- What a call that succeeds leaves alone. -/
structure Progress (s s' : Resolver) : Prop where
  visiting : s'.visiting = s.visiting
  visitStack : s'.visitStack = s.visitStack
  grows : s.resolved.entries ⊆ s'.resolved.entries
  fresh : ∀ n ∈ s.visiting, n ∈ s'.resolved → n ∈ s.resolved

theorem Progress.refl (s : Resolver) : Progress s s :=
  ⟨rfl, rfl, List.Subset.refl _, fun _ _ h => h⟩

theorem Progress.trans {s t u : Resolver} (h : Progress s t) (h' : Progress t u) : Progress s u where
  visiting := h'.visiting.trans h.visiting
  visitStack := h'.visitStack.trans h.visitStack
  grows := List.Subset.trans h.grows h'.grows
  fresh n hn hmem := h.fresh n hn (h'.fresh n (h.visiting ▸ hn) hmem)

variable {table : List (Entry ResolvedPackage)} {name : String}

theorem Satisfied.mono {table' : List (Entry ResolvedPackage)} {req : VersionReq}
    (hsub : table ⊆ table') (h : Satisfied table name req) : Satisfied table' name req := by
  obtain ⟨e, he, hname, hreq⟩ := h
  exact ⟨e, hsub he, hname, hreq⟩

theorem mem_entries_of_lookup {β : Type} {m : HashMap β} {b : β} (h : m.lookup name = some b) :
    (⟨name, b⟩ : Entry β) ∈ m.entries :=
  AList.mem_lookup_iff.mp h

/-! ## Registry packages -/

variable {e : Entry ResolvedPackage}

variable {f : Failure}

section

variable {order : Enumeration} {disk : Disk} {registry : PackageRegistry}
  {roots : List (Entry DepSpec)} {fuel : Nat} {name requiredBy hint : String} {req : VersionReq}
  {s s' : Resolver}

theorem Consistent.init : Consistent disk registry roots Resolver.init where
  built := .nil
  stacked _ hn := absurd hn (Finset.notMem_empty _)
  constrained _ he := by cases he

theorem Consistent.enter (h : Consistent disk registry roots s) (name : String) :
    Consistent disk registry roots (s.enter name) where
  built := h.built
  stacked n hn := by
    rcases Finset.mem_insert.mp hn with rfl | hn
    · exact List.mem_append_right _ (List.mem_singleton_self _)
    · exact List.mem_append_left _ (h.stacked n hn)
  constrained := h.constrained

/-- The state after the dependencies of `name` are resolved and `name` itself is stored. -/
theorem Consistent.leave {t : Resolver} {pkg : AvailablePackage} {deps : List String}
    (requiredBy : String)
    (hdem : Demanded disk registry roots name (.remote hint req))
    (hbest : registry.findBestMatch name req = some pkg) (hdeps : deps.Perm pkg.dependencies.keys)
    (hname : name ∉ s.visiting) (hnone : name ∉ s.resolved)
    (hs : Consistent disk registry roots s) (ht : Consistent disk registry roots t)
    (hprog : Progress (s.enter name) t)
    (hmet : ∀ dep ∈ pkg.dependencies.entries, Satisfied t.resolved.entries dep.1 dep.2) :
    Consistent disk registry roots (t.leave name req requiredBy (.ofRegistry name pkg deps)) ∧
      Progress s (t.leave name req requiredBy (.ofRegistry name pkg deps)) := by
  have hnone' : name ∉ t.resolved := by
    intro hmem
    exact hnone (hprog.fresh name (Finset.mem_insert_self _ _) hmem)
  have hentries : (t.leave name req requiredBy (.ofRegistry name pkg deps)).resolved.entries =
      ⟨name, .ofRegistry name pkg deps⟩ :: t.resolved.entries :=
    AList.entries_insert_of_notMem hnone'
  have hvisiting : (t.leave name req requiredBy (.ofRegistry name pkg deps)).visiting
      = s.visiting := by
    show t.visiting.erase name = s.visiting
    rw [hprog.visiting]
    exact Finset.erase_insert hname
  have hstack : (t.leave name req requiredBy (.ofRegistry name pkg deps)).visitStack
      = s.visitStack := by
    show t.visitStack.dropLast = s.visitStack
    rw [hprog.visitStack]
    exact List.dropLast_concat
  refine ⟨⟨?_, ?_, ?_⟩, ⟨hvisiting, hstack, ?_, ?_⟩⟩
  · rw [hentries]
    exact .remote ht.built hdem hbest hdeps hmet
  · intro n hn
    rw [hstack]
    exact hs.stacked n (hvisiting ▸ hn)
  · intro e he hremote
    rw [hentries] at he
    rw [show (t.leave name req requiredBy (.ofRegistry name pkg deps)).versionConstraints
      = t.versionConstraints.insert name (req, requiredBy) from rfl, AList.mem_insert]
    rcases List.mem_cons.mp he with rfl | he
    · exact .inl rfl
    · exact .inr (ht.constrained e he hremote)
  · rw [hentries]
    exact List.subset_cons_of_subset _ hprog.grows
  · intro n hn hmem
    rw [show (t.leave name req requiredBy (.ofRegistry name pkg deps)).resolved
      = t.resolved.insert name (.ofRegistry name pkg deps) from rfl, AList.mem_insert] at hmem
    rcases hmem with rfl | hmem
    · exact absurd hn hname
    · exact hprog.fresh n (Finset.mem_insert_of_mem hn) hmem

/-- A call that succeeds keeps the invariant and meets its requirement. -/
theorem resolveRecursive_spec (hdem : Demanded disk registry roots name (.remote hint req))
    (hs : Consistent disk registry roots s)
    (h : resolveRecursive order registry fuel name req hint requiredBy s = .ok s') :
    Consistent disk registry roots s' ∧ Progress s s' ∧
      Satisfied s'.resolved.entries name req := by
  induction fuel generalizing name req hint requiredBy s s' with
  | zero => cases h
  | succ fuel ih =>
    obtain ⟨hname, ⟨node, hnode, hmatch, rfl⟩ | ⟨k, pkg, t, hk, hnone, hbest, hdeps, rfl⟩⟩ :=
      resolveRecursive_ok h
    · exact ⟨hs, .refl _, ⟨name, node⟩, mem_entries_of_lookup hnode, rfl, hmatch⟩
    · obtain rfl : k = fuel := by omega
      have hloop := List.foldlM_ok_induct
        (fun done u => Consistent disk registry roots u ∧ Progress (s.enter name) u ∧
          ∀ dep ∈ done, Satisfied u.resolved.entries dep.1 dep.2)
        hdeps ⟨hs.enter name, .refl _, by simp⟩ ?_
      · obtain ⟨ht, hprog, hmet⟩ := hloop
        have hmet' : ∀ dep ∈ pkg.dependencies.entries,
            Satisfied t.resolved.entries dep.1 dep.2 := by
          intro dep hdep
          exact hmet dep ((order.reqs_perm name pkg.dependencies).mem_iff.mpr hdep)
        have hkeys : ((order.reqs name pkg.dependencies).map Sigma.fst).Perm
            pkg.dependencies.keys := (order.reqs_perm name pkg.dependencies).map _
        have hnone' : name ∉ s.resolved := AList.lookup_eq_none.mp hnone
        obtain ⟨hcons, hprog'⟩ := Consistent.leave requiredBy hdem hbest hkeys hname hnone' hs ht
          hprog hmet'
        refine ⟨hcons, hprog', ⟨name, _⟩, mem_entries_of_lookup (AList.lookup_insert _), rfl, ?_⟩
        obtain ⟨-, -, -, hmatch⟩ := PackageRegistry.findBestMatch_some hbest
        exact hmatch
      · intro pre dep post u u' hsplit hu hcall
        obtain ⟨hcons, hprog, hmet⟩ := hu
        have hdep : dep ∈ pkg.dependencies.entries := by
          rw [← (order.reqs_perm name pkg.dependencies).mem_iff, hsplit]
          simp
        obtain ⟨hcons', hprog', hsat⟩ := ih (.registry hdem hbest hdep) hcons hcall
        refine ⟨hcons', hprog.trans hprog', ?_⟩
        intro d hd
        rcases List.mem_append.mp hd with hd | hd
        · exact (hmet d hd).mono hprog'.grows
        · rw [List.mem_singleton.mp hd]
          exact hsat

/-- Where an entry of the table comes from. -/
theorem Built.origin (h : Built disk registry roots table) (he : e ∈ table) :
    (∃ path deps, Demanded disk registry roots e.1 (.path path) ∧
      e.2 = .ofPath e.1 path (readPathDepInfo disk e.1 path).1 deps) ∨
    ∃ source req pkg deps, Demanded disk registry roots e.1 (.remote source req) ∧
      registry.findBestMatch e.1 req = some pkg ∧ deps.Perm pkg.dependencies.keys ∧
      e.2 = .ofRegistry e.1 pkg deps ∧
      ∀ dep ∈ pkg.dependencies.entries, Satisfied table dep.1 dep.2 := by
  induction h with
  | nil => cases he
  | @path name path deps table _ hdem ih =>
    rcases List.mem_cons.mp he with rfl | he
    · exact .inl ⟨path, deps, hdem, rfl⟩
    · obtain hpath | ⟨source, req, pkg, ds, hd, hbest, hperm, hnode, hmet⟩ := ih he
      · exact .inl hpath
      · refine .inr ⟨source, req, pkg, ds, hd, hbest, hperm, hnode, ?_⟩
        intro dep hdep
        exact (hmet dep hdep).mono (List.subset_cons_self _ _)
  | @remote name source req pkg deps table _ hdem hbest hperm hmet ih =>
    rcases List.mem_cons.mp he with rfl | he
    · refine .inr ⟨source, req, pkg, deps, hdem, hbest, hperm, rfl, ?_⟩
      intro dep hdep
      exact (hmet dep hdep).mono (List.subset_cons_self _ _)
    · obtain hpath | ⟨source', req', pkg', ds, hd, hbest', hperm', hnode, hmet'⟩ := ih he
      · exact .inl hpath
      · refine .inr ⟨source', req', pkg', ds, hd, hbest', hperm', hnode, ?_⟩
        intro dep hdep
        exact (hmet' dep hdep).mono (List.subset_cons_self _ _)

theorem Built.name_eq (h : Built disk registry roots table) (he : e ∈ table) : e.2.name = e.1 := by
  obtain ⟨path, deps, -, hnode⟩ | ⟨source, req, pkg, deps, -, -, -, hnode, -⟩ := h.origin he
  · rw [hnode]
    rfl
  · rw [hnode]
    rfl

/-! ## Failures -/

/-- The names of the registry that are not under way. -/
def room (registry : PackageRegistry) (s : Resolver) : Nat :=
  (registry.packages.keys.toFinset \ s.visiting).card

theorem room_lt_of_visiting (hname : name ∉ s.visiting) (hmem : name ∈ registry.packages)
    (hvisiting : s'.visiting = insert name s.visiting) : room registry s' < room registry s := by
  rw [room, room, hvisiting]
  refine Finset.card_lt_card ?_
  rw [Finset.ssubset_iff_of_subset]
  · refine ⟨name, ?_, ?_⟩
    · simp [AList.mem_keys.mp hmem, hname]
    · simp
  · exact Finset.sdiff_subset_sdiff (Finset.Subset.refl _) (Finset.subset_insert _ _)

/-- Registry requirements on a path dependency admit the version of its manifest. -/
def Admitted (disk : Disk) (registry : PackageRegistry) (roots : List (Entry DepSpec)) : Prop :=
  ∀ name path source req, Demanded disk registry roots name (.path path) →
    Demanded disk registry roots name (.remote source req) →
    req.matches (readPathDepInfo disk name path).1

/-- A failed loop over the dependencies of `name` failed in one of them, with `name` under way. -/
theorem resolveDeps_error {pkg : AvailablePackage}
    (hdem : Demanded disk registry roots name (.remote hint req))
    (hbest : registry.findBestMatch name req = some pkg) (hs : Consistent disk registry roots s)
    (h : resolveDeps order registry fuel name pkg s = .error f) :
    ∃ dep ∈ pkg.dependencies.entries, ∃ t, Consistent disk registry roots t ∧
      t.visiting = insert name s.visiting ∧
      resolveRecursive order registry fuel dep.1 dep.2 pkg.source name t = .error f := by
  obtain ⟨pre, dep, post, t, hsplit, hpre, hcall⟩ := List.foldlM_error_split h
  have hmem : ∀ d ∈ pre ++ dep :: post, d ∈ pkg.dependencies.entries := by
    intro d hd
    rwa [← hsplit, (order.reqs_perm name pkg.dependencies).mem_iff] at hd
  have ht := List.foldlM_ok_induct
    (fun _ u => Consistent disk registry roots u ∧ u.visiting = insert name s.visiting)
    hpre ⟨hs.enter name, rfl⟩ ?_
  · exact ⟨dep, hmem dep (by simp), t, ht.1, ht.2, hcall⟩
  · intro pre' d post' u u' hsplit' hu hcall'
    have hd : d ∈ pkg.dependencies.entries := hmem d (by rw [hsplit']; simp)
    obtain ⟨hcons, hprog, -⟩ := resolveRecursive_spec (.registry hdem hbest hd) hu.1 hcall'
    exact ⟨hcons, hprog.visiting.trans hu.2⟩

/-- With enough depth, a call fails with an error of the source only. -/
theorem resolveRecursive_fails (hadm : Admitted disk registry roots)
    (hdem : Demanded disk registry roots name (.remote hint req))
    (hs : Consistent disk registry roots s) (hfuel : room registry s < fuel)
    (h : resolveRecursive order registry fuel name req hint requiredBy s = .error f) :
    ∃ e, f = .error e := by
  induction fuel generalizing name req hint requiredBy s with
  | zero => omega
  | succ fuel ih =>
    obtain ⟨hzero, -⟩ | ⟨hvisiting, ⟨hstack, -⟩ | he⟩ | ⟨-, node, hnode, hmatch, hc⟩ |
      ⟨-, -, -, he⟩ | ⟨hname, -, k, pkg, hk, hbest, hdeps⟩ := resolveRecursive_error h
    · omega
    · exact absurd (hs.stacked name hvisiting) hstack
    · exact he
    · obtain ⟨hconstr, -⟩ | he := hc
      · have hmem := mem_entries_of_lookup hnode
        obtain ⟨path, deps, hpath, hnode'⟩ | ⟨source, r, p, deps, -, -, -, hnode', -⟩ :=
          hs.built.origin hmem
        · have hversion : node.version = (readPathDepInfo disk name path).1 :=
            congrArg ResolvedPackage.version hnode'
          rw [hversion] at hmatch
          exact absurd (hadm name path hint req hpath hdem) hmatch
        · exact absurd (hs.constrained _ hmem ⟨p.source, by rw [hnode']; rfl⟩) hconstr
      · exact he
    · exact he
    · obtain rfl : k = fuel := by omega
      obtain ⟨dep, hdep, t, ht, hvisiting, hcall⟩ := resolveDeps_error hdem hbest hs hdeps
      refine ih (.registry hdem hbest hdep) ht ?_ hcall
      have hlt := room_lt_of_visiting hname (PackageRegistry.mem_of_findBestMatch hbest) hvisiting
      omega

/-- More depth changes nothing once a call is not cut off. -/
theorem resolveRecursive_succ
    (h : resolveRecursive order registry fuel name req hint requiredBy s ≠ .error .diverged) :
    resolveRecursive order registry (fuel + 1) name req hint requiredBy s =
      resolveRecursive order registry fuel name req hint requiredBy s := by
  induction fuel generalizing name req hint requiredBy s with
  | zero => exact absurd rfl h
  | succ fuel ih =>
    rw [resolveRecursive, resolveRecursive]
    rw [resolveRecursive] at h
    split
    · rfl
    · rename_i hname
      rw [if_neg hname] at h
      cases hlookup : s.resolved.lookup name with
      | some node => rfl
      | none =>
        cases hversions : registry.getVersions name with
        | none => rfl
        | some versions =>
          cases hbest : registry.findBestMatch name req with
          | none => rfl
          | some pkg =>
            simp only [hlookup, hversions, hbest] at h ⊢
            rw [List.foldlM_eq_of_ne_error (fun _ _ _ hne => ih hne)]
            intro hloop
            rw [hloop] at h
            exact h rfl

end

/-! ## Path dependencies and roots -/

/-- The table meets a requirement. A path imposes no version. -/
def Met (table : List (Entry ResolvedPackage)) (name : String) : DepSpec → Prop
  | .remote _ req => Satisfied table name req
  | .path _ => ∃ e ∈ table, e.1 = name

theorem Met.mono {table' : List (Entry ResolvedPackage)} {spec : DepSpec} (hsub : table ⊆ table')
    (h : Met table name spec) : Met table' name spec := by
  cases spec with
  | remote source req => exact Satisfied.mono hsub h
  | path path =>
    obtain ⟨e, he, hname⟩ := h
    exact ⟨e, hsub he, hname⟩

theorem exists_entry_of_mem {β : Type} {m : HashMap β} (h : name ∈ m) :
    ∃ e ∈ m.entries, e.1 = name := by
  obtain ⟨b, hb⟩ := Option.isSome_iff_exists.mp (AList.lookup_isSome.mpr h)
  exact ⟨⟨name, b⟩, mem_entries_of_lookup hb, rfl⟩

variable {registry : PackageRegistry}

theorem Built.mono {disk : Disk} {roots roots' : List (Entry DepSpec)} (hsub : roots ⊆ roots')
    (h : Built disk registry roots table) : Built disk registry roots' table := by
  induction h with
  | nil => exact .nil
  | path _ hdem ih => exact .path ih (hdem.mono hsub)
  | remote _ hdem hbest hperm hmet ih => exact .remote ih (hdem.mono hsub) hbest hperm hmet

theorem Consistent.mono {disk : Disk} {roots roots' : List (Entry DepSpec)} {s : Resolver}
    (hsub : roots ⊆ roots') (h : Consistent disk registry roots s) :
    Consistent disk registry roots' s :=
  ⟨h.built.mono hsub, h.stacked, h.constrained⟩

variable {dep : Entry DepSpec}

section

variable {order : Enumeration} {disk : Disk} {registry : PackageRegistry}
  {roots : List (Entry DepSpec)} {fuel : Nat} {s s' : Resolver}

/-- Storing a path dependency, between calls. -/
theorem Consistent.insertPath {path : String} (deps : List String)
    (hdem : Demanded disk registry roots name (.path path)) (hs : Consistent disk registry roots s)
    (hidle : s.visiting = ∅) (hnone : name ∉ s.resolved) :
    Consistent disk registry roots
      (s.store name (.ofPath name path (readPathDepInfo disk name path).1 deps)) ∧
    Progress s (s.store name (.ofPath name path (readPathDepInfo disk name path).1 deps)) := by
  have hentries : (s.store name
      (.ofPath name path (readPathDepInfo disk name path).1 deps)).resolved.entries =
      ⟨name, .ofPath name path (readPathDepInfo disk name path).1 deps⟩ :: s.resolved.entries :=
    AList.entries_insert_of_notMem hnone
  refine ⟨⟨?_, hs.stacked, ?_⟩, ⟨rfl, rfl, ?_, ?_⟩⟩
  · rw [hentries]
    exact .path hs.built hdem
  · intro e he hremote
    rw [hentries] at he
    rcases List.mem_cons.mp he with rfl | he
    · obtain ⟨source, hsource⟩ := hremote
      cases hsource
    · exact hs.constrained e he hremote
  · rw [hentries]
    exact List.subset_cons_self _ _
  · intro n hn
    rw [hidle] at hn
    cases hn

theorem resolveManifestDep_spec (hdem : Demanded disk registry roots dep.1 dep.2)
    (hs : Consistent disk registry roots s) (hidle : s.visiting = ∅)
    (h : resolveManifestDep order disk registry fuel name s dep = .ok s') :
    Consistent disk registry roots s' ∧ Progress s s' ∧
      Met s'.resolved.entries dep.1 dep.2 := by
  obtain ⟨sub, spec⟩ := dep
  cases spec with
  | remote source req => exact resolveRecursive_spec hdem hs h
  | path path =>
    simp only [resolveManifestDep] at h
    split at h
    · rename_i hmem
      cases h
      exact ⟨hs, .refl _, exists_entry_of_mem hmem⟩
    · rename_i hnone
      cases h
      obtain ⟨hcons, hprog⟩ := Consistent.insertPath [] hdem hs hidle hnone
      exact ⟨hcons, hprog, exists_entry_of_mem ((AList.mem_insert _).mpr (.inl rfl))⟩

/-- A root that succeeds is met, and so is the manifest of a path root that was not resolved
before. -/
theorem resolveRoot_spec (hdep : dep ∈ roots) (hs : Consistent disk registry roots s)
    (hidle : s.visiting = ∅) (h : resolveRoot order disk registry fuel s dep = .ok s') :
    Consistent disk registry roots s' ∧ Progress s s' ∧ Met s'.resolved.entries dep.1 dep.2 ∧
      ∀ path, dep.2 = .path path → dep.1 ∉ s.resolved →
        ∀ sub ∈ (readPathDepInfo disk dep.1 path).2.entries,
          Met s'.resolved.entries sub.1 sub.2 := by
  obtain ⟨name, spec⟩ := dep
  have hdem : Demanded disk registry roots name spec := .root hdep
  cases spec with
  | remote source req =>
    obtain ⟨hcons, hprog, hsat⟩ := resolveRecursive_spec hdem hs h
    refine ⟨hcons, hprog, hsat, ?_⟩
    intro path hpath
    cases hpath
  | path path =>
    simp only [resolveRoot] at h
    split at h
    · rename_i hmem
      cases h
      refine ⟨hs, .refl _, exists_entry_of_mem hmem, ?_⟩
      intro _ _ hnone
      exact absurd hmem hnone
    · rename_i hnone
      obtain ⟨hcons, hprog⟩ := Consistent.insertPath
        ((order.specs name (readPathDepInfo disk name path).2).map Sigma.fst) hdem hs hidle hnone
      have hloop := List.foldlM_ok_induct
        (fun done u => Consistent disk registry roots u ∧ Progress s u ∧
          Met u.resolved.entries name (.path path) ∧
          ∀ sub ∈ done, Met u.resolved.entries sub.1 sub.2)
        h ⟨hcons, hprog, exists_entry_of_mem ((AList.mem_insert _).mpr (.inl rfl)), by simp⟩ ?_
      · obtain ⟨hcons', hprog', hmet, hall⟩ := hloop
        refine ⟨hcons', hprog', hmet, ?_⟩
        intro path' hpath _ sub hsub
        cases hpath
        exact hall sub ((order.specs_perm name _).mem_iff.mpr hsub)
      · intro pre sub post u u' hsplit hu hcall
        obtain ⟨hcons, hprog, hmet, hall⟩ := hu
        have hsub : sub ∈ (readPathDepInfo disk name path).2.entries := by
          rw [← (order.specs_perm name _).mem_iff, hsplit]
          simp
        obtain ⟨hcons', hprog', hmet'⟩ := resolveManifestDep_spec (.manifest hdep rfl hsub) hcons
          (hprog.visiting.trans hidle) hcall
        refine ⟨hcons', hprog.trans hprog', hmet.mono hprog'.grows, ?_⟩
        intro d hd
        rcases List.mem_append.mp hd with hd | hd
        · exact (hall d hd).mono hprog'.grows
        · rw [List.mem_singleton.mp hd]
          exact hmet'

/-- The depth that is always enough. -/
def PackageRegistry.depth (registry : PackageRegistry) : Nat :=
  registry.packages.keys.length + 1

theorem room_lt_depth (registry : PackageRegistry) (s : Resolver) :
    room registry s < registry.depth := by
  have h := Finset.card_le_card (Finset.sdiff_subset (s := registry.packages.keys.toFinset)
    (t := s.visiting))
  have h' := List.toFinset_card_le registry.packages.keys
  rw [room, PackageRegistry.depth]
  omega

/-- A failed root failed in a call for a registry requirement, with nothing under way. -/
theorem resolveRoot_error (hdep : dep ∈ roots) (hs : Consistent disk registry roots s)
    (hidle : s.visiting = ∅) (h : resolveRoot order disk registry fuel s dep = .error f) :
    ∃ name req hint requiredBy t, Demanded disk registry roots name (.remote hint req) ∧
      Consistent disk registry roots t ∧ t.visiting = ∅ ∧
      resolveRecursive order registry fuel name req hint requiredBy t = .error f := by
  obtain ⟨name, spec⟩ := dep
  have hdem : Demanded disk registry roots name spec := .root hdep
  cases spec with
  | remote source req => exact ⟨name, req, source, "root", s, hdem, hs, hidle, h⟩
  | path path =>
    simp only [resolveRoot] at h
    split at h
    · cases h
    · rename_i hnone
      obtain ⟨hcons, hprog⟩ := Consistent.insertPath
        ((order.specs name (readPathDepInfo disk name path).2).map Sigma.fst) hdem hs hidle hnone
      obtain ⟨pre, sub, post, t, hsplit, hpre, hcall⟩ := List.foldlM_error_split h
      have hmem : ∀ d ∈ pre ++ sub :: post, Demanded disk registry roots d.1 d.2 := by
        intro d hd
        rw [← hsplit, (order.specs_perm name _).mem_iff] at hd
        exact .manifest hdep rfl hd
      have ht := List.foldlM_ok_induct
        (fun _ u => Consistent disk registry roots u ∧ u.visiting = ∅)
        hpre ⟨hcons, hprog.visiting.trans hidle⟩ ?_
      · obtain ⟨subName, subSpec⟩ := sub
        cases subSpec with
        | remote source req =>
          have hsub := hmem ⟨subName, .remote source req⟩ (by simp)
          exact ⟨subName, req, source, name, t, hsub, ht.1, ht.2, hcall⟩
        | path subPath =>
          simp only [resolveManifestDep] at hcall
          split at hcall <;> cases hcall
      · intro pre' d post' u u' hsplit' hu hcall'
        obtain ⟨hcons', hprog', -⟩ :=
          resolveManifestDep_spec (hmem d (by rw [hsplit']; simp)) hu.1 hu.2 hcall'
        exact ⟨hcons', hprog'.visiting.trans hu.2⟩

theorem resolveManifestDep_succ
    (h : resolveManifestDep order disk registry fuel name s dep ≠ .error .diverged) :
    resolveManifestDep order disk registry (fuel + 1) name s dep =
      resolveManifestDep order disk registry fuel name s dep := by
  obtain ⟨sub, spec⟩ := dep
  cases spec with
  | remote source req => exact resolveRecursive_succ h
  | path path => rfl

theorem resolveRoot_succ (h : resolveRoot order disk registry fuel s dep ≠ .error .diverged) :
    resolveRoot order disk registry (fuel + 1) s dep =
      resolveRoot order disk registry fuel s dep := by
  obtain ⟨name, spec⟩ := dep
  cases spec with
  | remote source req => exact resolveRecursive_succ h
  | path path =>
    simp only [resolveRoot] at h ⊢
    split
    · rfl
    · rename_i hnone
      rw [if_neg hnone] at h
      exact List.foldlM_eq_of_ne_error (fun _ _ _ hne => resolveManifestDep_succ hne) h

/-- More depth changes nothing once a resolution is not cut off. -/
theorem resolve_eq_of_le {rootDeps : HashMap DepSpec} {fuel' : Nat} (hle : fuel ≤ fuel')
    (h : resolve order disk registry fuel rootDeps ≠ .error .diverged) :
    resolve order disk registry fuel' rootDeps = resolve order disk registry fuel rootDeps := by
  induction hle with
  | refl => rfl
  | @step k _ ih =>
    rw [← ih] at h ⊢
    rw [resolve] at h ⊢
    rw [resolve, List.foldlM_eq_of_ne_error (fun _ _ _ hne => resolveRoot_succ hne)]
    intro hloop
    rw [hloop] at h
    exact h rfl

end

/-! ## The graph -/

/-- The graph meets a requirement. -/
def ResolvedGraph.Meets (graph : ResolvedGraph) (name : String) : DepSpec → Prop
  | .remote _ req => ∃ node, graph.get name = some node ∧ req.matches node.version
  | .path _ => ∃ node, graph.get name = some node

/-- A registry package depends on another one. -/
def ResolvedGraph.DependsOn (graph : ResolvedGraph) (a b : String) : Prop :=
  ∃ p q, graph.get a = some p ∧ graph.get b = some q ∧ (∃ source, p.source = .remote source) ∧
    (∃ source, q.source = .remote source) ∧ b ∈ p.dependencies

/-- The path dependencies of a table and, at any depth, of their manifests. -/
inductive PathDep (disk : Disk) (rootDeps : HashMap DepSpec) : String → String → Prop
  | root {name path : String} : ⟨name, .path path⟩ ∈ rootDeps.entries → PathDep disk rootDeps name path
  | manifest {name path sub subPath : String} : PathDep disk rootDeps name path →
      ⟨sub, .path subPath⟩ ∈ (readPathDepInfo disk name path).2.entries →
      PathDep disk rootDeps sub subPath

/-- Every requirement is met by the graph, packages occur once, registry packages form no cycle. -/
structure ResolvedGraph.Sound (disk : Disk) (registry : PackageRegistry) (rootDeps : HashMap DepSpec)
    (graph : ResolvedGraph) : Prop where
  roots : ∀ dep ∈ rootDeps.entries, graph.Meets dep.1 dep.2
  registryDeps : ∀ node ∈ graph.packages, ∀ source, node.source = .remote source →
    ∃ versions pkg, registry.getVersions node.name = some versions ∧ pkg ∈ versions ∧
      node.version = pkg.version ∧ source = pkg.source ∧ node.checksum = pkg.checksum ∧
      node.dependencies.Perm pkg.dependencies.keys ∧
      ∀ dep ∈ pkg.dependencies.entries, graph.Meets dep.1 (.remote source dep.2)
  pathDeps : ∀ name path, PathDep disk rootDeps name path →
    ∀ dep ∈ (readPathDepInfo disk name path).2.entries, graph.Meets dep.1 dep.2
  once : (graph.packages.map ResolvedPackage.name).Nodup
  acyclic : ∀ name, ¬ Relation.TransGen graph.DependsOn name name

section

variable {disk : Disk} {registry : PackageRegistry} {roots : List (Entry DepSpec)}
  {table : List (Entry ResolvedPackage)}

theorem Built.names (h : Built disk registry roots table) :
    (table.map Sigma.snd).map ResolvedPackage.name = table.keys := by
  rw [List.map_map]
  exact List.map_congr_left fun e he => h.name_eq he

theorem find?_name_eq {packages : List ResolvedPackage} {node : ResolvedPackage}
    (hnodup : (packages.map ResolvedPackage.name).Nodup) (hnode : node ∈ packages) :
    packages.find? (fun p => p.name = node.name) = some node := by
  induction packages with
  | nil => cases hnode
  | cons p packages ih =>
    rw [List.map_cons, List.nodup_cons] at hnodup
    rcases List.mem_cons.mp hnode with rfl | hnode
    · simp
    · have hne : p.name ≠ node.name := by
        intro heq
        exact hnodup.1 (heq ▸ List.mem_map_of_mem hnode)
      rw [List.find?_cons_of_neg (by simpa using hne)]
      exact ih hnodup.2 hnode

section

variable (h : Built disk registry roots table)

include h

theorem Built.get_eq (hnodup : table.NodupKeys) (he : e ∈ table) :
    ResolvedGraph.get ⟨table.map Sigma.snd⟩ e.1 = some e.2 := by
  rw [ResolvedGraph.get, ← h.name_eq he]
  refine find?_name_eq ?_ (List.mem_map_of_mem he)
  rw [h.names]
  exact hnodup

theorem Built.mem_of_get {node : ResolvedPackage}
    (hget : ResolvedGraph.get ⟨table.map Sigma.snd⟩ name = some node) : ⟨name, node⟩ ∈ table := by
  rw [ResolvedGraph.get] at hget
  have hname : node.name = name := by simpa using List.find?_some hget
  obtain ⟨e, he, rfl⟩ := List.mem_map.mp (List.mem_of_find?_eq_some hget)
  rw [← hname, h.name_eq he]
  exact he

theorem Built.meets_of_met (hnodup : table.NodupKeys) {spec : DepSpec} (hmet : Met table name spec)
    :
    ResolvedGraph.Meets ⟨table.map Sigma.snd⟩ name spec := by
  cases spec with
  | remote source req =>
    obtain ⟨e, he, rfl, hreq⟩ := hmet
    exact ⟨e.2, h.get_eq hnodup he, hreq⟩
  | path path =>
    obtain ⟨e, he, rfl⟩ := hmet
    exact ⟨e.2, h.get_eq hnodup he⟩

/-- The dependencies of a registry package stand deeper in the table than the package. -/
theorem Built.idxOf_lt (hnodup : table.NodupKeys) (he : e ∈ table)
    (hremote : ∃ source, e.2.source = .remote source) {dep : String} (hdep : dep ∈ e.2.dependencies)
    :
    dep ∈ table.keys ∧ table.keys.idxOf e.1 < table.keys.idxOf dep := by
  induction h with
  | nil => cases he
  | @path name path deps table _ _ ih =>
    rw [List.nodupKeys_cons] at hnodup
    rcases List.mem_cons.mp he with rfl | he
    · obtain ⟨source, hsource⟩ := hremote
      cases hsource
    · obtain ⟨hmem, hlt⟩ := ih hnodup.2 he
      have hdep' : name ≠ dep := fun heq => hnodup.1 (heq ▸ hmem)
      have hkey : e.1 ∈ table.keys := List.mem_keys_of_mem he
      have he' : name ≠ e.1 := fun heq => hnodup.1 (heq ▸ hkey)
      rw [List.keys_cons, List.idxOf_cons_ne _ hdep', List.idxOf_cons_ne _ he']
      exact ⟨List.mem_cons_of_mem _ hmem, by omega⟩
  | @remote name source req pkg deps table _ _ _ hperm hmet ih =>
    rw [List.nodupKeys_cons] at hnodup
    rcases List.mem_cons.mp he with rfl | he
    · have hkey : dep ∈ pkg.dependencies.keys := hperm.mem_iff.mp hdep
      obtain ⟨r, hr⟩ := List.exists_of_mem_keys hkey
      obtain ⟨e', he', hname, -⟩ := hmet _ hr
      have hmem : dep ∈ table.keys := by
        rw [← show e'.1 = dep from hname]
        exact List.mem_keys_of_mem he'
      have hdep' : name ≠ dep := fun heq => hnodup.1 (heq ▸ hmem)
      rw [List.keys_cons, List.idxOf_cons_ne _ hdep', List.idxOf_cons_self]
      exact ⟨List.mem_cons_of_mem _ hmem, Nat.succ_pos _⟩
    · obtain ⟨hmem, hlt⟩ := ih hnodup.2 he
      have hdep' : name ≠ dep := fun heq => hnodup.1 (heq ▸ hmem)
      have hkey : e.1 ∈ table.keys := List.mem_keys_of_mem he
      have he' : name ≠ e.1 := fun heq => hnodup.1 (heq ▸ hkey)
      rw [List.keys_cons, List.idxOf_cons_ne _ hdep', List.idxOf_cons_ne _ he']
      exact ⟨List.mem_cons_of_mem _ hmem, by omega⟩

theorem Built.acyclic (hnodup : table.NodupKeys) (name : String) :
    ¬ Relation.TransGen (ResolvedGraph.DependsOn ⟨table.map Sigma.snd⟩) name name := by
  have hedge : ∀ a b, ResolvedGraph.DependsOn ⟨table.map Sigma.snd⟩ a b →
      table.keys.idxOf a < table.keys.idxOf b := by
    rintro a b ⟨p, q, hp, -, hremote, -, hdep⟩
    exact (h.idxOf_lt hnodup (h.mem_of_get hp) hremote hdep).2
  have hpath : ∀ a b, Relation.TransGen (ResolvedGraph.DependsOn ⟨table.map Sigma.snd⟩) a b →
      table.keys.idxOf a < table.keys.idxOf b := by
    intro a b hab
    induction hab with
    | single hab => exact hedge _ _ hab
    | tail _ hbc ih => exact ih.trans (hedge _ _ hbc)
  intro hcycle
  exact absurd (hpath name name hcycle) (lt_irrefl _)

end

end

/-! ## Whole resolutions -/

/-- The roots other than `name`. -/
def otherRoots (rootDeps : HashMap DepSpec) (name : String) : List (Entry DepSpec) :=
  rootDeps.entries.filter fun dep => dep.1 ≠ name

section

variable {order : Enumeration} {disk : Disk} {registry : PackageRegistry}
  {rootDeps : HashMap DepSpec} {fuel : Nat} {s : Resolver}

/-- What a name was demanded by when the turn of the root `dep` comes. -/
theorem subset_otherRoots {pre post : List (Entry DepSpec)}
    (hsplit : order.roots rootDeps = pre ++ dep :: post) : pre ⊆ otherRoots rootDeps dep.1 := by
  have hperm := order.roots_perm rootDeps
  rw [hsplit] at hperm
  have hnodup : (pre ++ dep :: post).keys.Nodup :=
    (hperm.map Sigma.fst).nodup_iff.mpr rootDeps.nodupKeys
  intro e he
  refine List.mem_filter.mpr ⟨hperm.mem_iff.mp (List.mem_append_left _ he), ?_⟩
  rw [List.keys, List.map_append, List.nodup_append] at hnodup
  have hne := hnodup.2.2 e.1 (List.mem_map_of_mem he) dep.1 (by simp)
  simpa using hne

/-- The table at the end, and the manifests of the path roots that no other root resolves. -/
theorem resolveRoots_spec
    (h : (order.roots rootDeps).foldlM (resolveRoot order disk registry fuel) Resolver.init
      = .ok s) :
    Consistent disk registry rootDeps.entries s ∧
      (∀ dep ∈ rootDeps.entries, Met s.resolved.entries dep.1 dep.2) ∧
      ∀ name path, ⟨name, .path path⟩ ∈ rootDeps.entries →
        (∀ spec, ¬ Demanded disk registry (otherRoots rootDeps name) name spec) →
        ∀ sub ∈ (readPathDepInfo disk name path).2.entries,
          Met s.resolved.entries sub.1 sub.2 := by
  have hloop := List.foldlM_ok_induct
    (fun done u => Consistent disk registry done u ∧ u.visiting = ∅ ∧
      ∀ dep ∈ done, Met u.resolved.entries dep.1 dep.2 ∧
        ∀ path, dep.2 = .path path →
          (∀ spec, ¬ Demanded disk registry (otherRoots rootDeps dep.1) dep.1 spec) →
          ∀ sub ∈ (readPathDepInfo disk dep.1 path).2.entries,
            Met u.resolved.entries sub.1 sub.2)
    h ⟨Consistent.init, rfl, by simp⟩ ?_
  · obtain ⟨hcons, -, hmet⟩ := hloop
    have hperm := order.roots_perm rootDeps
    refine ⟨hcons.mono fun e he => hperm.mem_iff.mp he, ?_, ?_⟩
    · intro dep hdep
      exact (hmet dep (hperm.mem_iff.mpr hdep)).1
    · intro name path hdep
      exact (hmet ⟨name, .path path⟩ (hperm.mem_iff.mpr hdep)).2 path rfl
  · intro pre dep post u u' hsplit hu hcall
    obtain ⟨hcons, hidle, hmet⟩ := hu
    have hcons' : Consistent disk registry (pre ++ [dep]) u :=
      hcons.mono (List.subset_append_left _ _)
    obtain ⟨hcons', hprog, hdep, hmanifest⟩ := resolveRoot_spec (by simp) hcons' hidle hcall
    refine ⟨hcons', hprog.visiting.trans hidle, ?_⟩
    intro d hd
    rcases List.mem_append.mp hd with hd | hd
    · obtain ⟨hd', hm⟩ := hmet d hd
      refine ⟨hd'.mono hprog.grows, ?_⟩
      intro path hpath hown sub hsub
      exact (hm path hpath hown sub hsub).mono hprog.grows
    · rw [List.mem_singleton.mp hd]
      refine ⟨hdep, ?_⟩
      intro path hpath hown
      refine hmanifest path hpath ?_
      -- an entry under this name would be demanded by the roots before
      intro hmem
      obtain ⟨e, he, hname⟩ := exists_entry_of_mem hmem
      have hsub := subset_otherRoots hsplit
      obtain ⟨p, _, hdem, -⟩ | ⟨source, req, _, _, hdem, -⟩ := hcons.built.origin he
      · exact hown _ (hname ▸ hdem.mono hsub)
      · exact hown _ (hname ▸ hdem.mono hsub)

/-- A failed resolution failed in a call for a registry requirement, with nothing under way. -/
theorem resolve_error (h : resolve order disk registry fuel rootDeps = .error f) :
    ∃ name req hint requiredBy t,
      Demanded disk registry rootDeps.entries name (.remote hint req) ∧
      Consistent disk registry rootDeps.entries t ∧ t.visiting = ∅ ∧
      resolveRecursive order registry fuel name req hint requiredBy t = .error f := by
  rw [resolve] at h
  split at h
  · rename_i f' hloop
    cases h
    obtain ⟨pre, dep, post, t, hsplit, hpre, hcall⟩ := List.foldlM_error_split hloop
    have hmem : ∀ d ∈ pre ++ dep :: post, d ∈ rootDeps.entries := by
      intro d hd
      rwa [← hsplit, (order.roots_perm rootDeps).mem_iff] at hd
    have ht := List.foldlM_ok_induct
      (fun _ u => Consistent disk registry rootDeps.entries u ∧ u.visiting = ∅) hpre
      ⟨Consistent.init, rfl⟩ ?_
    · exact resolveRoot_error (hmem dep (by simp)) ht.1 ht.2 hcall
    · intro pre' d post' u u' hsplit' hu hcall'
      obtain ⟨hcons, hprog, -⟩ :=
        resolveRoot_spec (hmem d (by rw [hsplit']; simp)) hu.1 hu.2 hcall'
      exact ⟨hcons, hprog.visiting.trans hu.2⟩
  · cases h

/-- With enough depth, a resolution fails with an error of the source only. -/
theorem resolve_fails (hadm : Admitted disk registry rootDeps.entries)
    (hfuel : registry.depth ≤ fuel) (h : resolve order disk registry fuel rootDeps = .error f) :
    ∃ e, f = .error e := by
  obtain ⟨name, req, hint, requiredBy, t, hdem, ht, -, hcall⟩ := resolve_error h
  exact resolveRecursive_fails hadm hdem ht ((room_lt_depth registry t).trans_le hfuel) hcall

end

/-- The resolver passes over no requirement of a manifest: a path dependency of a path root has
no dependencies of its own, a path root with dependencies is not also resolved on behalf of
another root, and registry requirements on path dependencies admit the versions of the manifests. -/
structure PathsSettled (disk : Disk) (registry : PackageRegistry) (rootDeps : HashMap DepSpec) :
    Prop where
  nested : ∀ name path sub subPath, ⟨name, .path path⟩ ∈ rootDeps.entries →
    ⟨sub, .path subPath⟩ ∈ (readPathDepInfo disk name path).2.entries →
    (sub = name ∧ subPath = path) ∨ (readPathDepInfo disk sub subPath).2.entries = []
  own : ∀ name path, ⟨name, .path path⟩ ∈ rootDeps.entries →
    (readPathDepInfo disk name path).2.entries ≠ [] →
    ∀ spec, ¬ Demanded disk registry (otherRoots rootDeps name) name spec
  admitted : Admitted disk registry rootDeps.entries

theorem PathsSettled.of_pathDep {disk : Disk} {rootDeps : HashMap DepSpec}
    (h : PathsSettled disk registry rootDeps) {path : String}
    (hdep : PathDep disk rootDeps name path) :
    ⟨name, .path path⟩ ∈ rootDeps.entries ∨ (readPathDepInfo disk name path).2.entries = [] := by
  induction hdep with
  | root hmem => exact .inl hmem
  | manifest _ hsub ih =>
    rcases ih with hmem | hnil
    · rcases h.nested _ _ _ _ hmem hsub with ⟨rfl, rfl⟩ | hnil
      · exact .inl hmem
      · exact .inr hnil
    · rw [hnil] at hsub
      cases hsub

/-- A resolution has a result at every sufficient depth, the result is no panic, and a graph is
sound. -/
def SoundAndTotal (order : Enumeration) (disk : Disk) (registry : PackageRegistry)
    (rootDeps : HashMap DepSpec) : Prop :=
  ∃ enough result, (∀ fuel ≥ enough, resolve order disk registry fuel rootDeps = result) ∧
    result ≠ .error .diverged ∧ result ≠ .error .panicked ∧
    ∀ graph, result = .ok graph → graph.Sound disk registry rootDeps

theorem resolve_sound_and_total {disk : Disk} {registry : PackageRegistry}
    {rootDeps : HashMap DepSpec} (h : PathsSettled disk registry rootDeps) (order : Enumeration) :
    SoundAndTotal order disk registry rootDeps := by
  have hfails : ∀ f, resolve order disk registry registry.depth rootDeps = .error f →
      ∃ e, f = .error e := fun f hf => resolve_fails h.admitted le_rfl hf
  have hdiverged : resolve order disk registry registry.depth rootDeps ≠ .error .diverged := by
    intro hf
    obtain ⟨e, he⟩ := hfails _ hf
    cases he
  refine ⟨registry.depth, _, fun fuel hle => resolve_eq_of_le hle hdiverged, hdiverged, ?_, ?_⟩
  · intro hf
    obtain ⟨e, he⟩ := hfails _ hf
    cases he
  · intro graph hgraph
    rw [resolve] at hgraph
    split at hgraph
    · cases hgraph
    · rename_i s hs
      cases hgraph
      obtain ⟨hcons, hroots, hmanifests⟩ := resolveRoots_spec hs
      have hnodup := s.resolved.nodupKeys
      have hmeets : ∀ {name spec}, Met s.resolved.entries name spec →
          ResolvedGraph.Meets ⟨s.resolved.entries.map Sigma.snd⟩ name spec :=
        fun hmet => hcons.built.meets_of_met hnodup hmet
      refine ⟨fun dep hdep => hmeets (hroots dep hdep), ?_, ?_, ?_, hcons.built.acyclic hnodup⟩
      · intro node hnode source hsource
        obtain ⟨e, he, rfl⟩ := List.mem_map.mp hnode
        obtain ⟨path, deps, -, hn⟩ | ⟨_, req, pkg, deps, -, hbest, hperm, hn, hmet⟩ :=
          hcons.built.origin he
        · rw [hn] at hsource
          cases hsource
        · obtain ⟨versions, hversions, hpkg, -⟩ := PackageRegistry.findBestMatch_some hbest
          rw [hn] at hsource ⊢
          cases hsource
          exact ⟨versions, pkg, hversions, hpkg, rfl, rfl, rfl, hperm,
            fun dep hdep => hcons.built.meets_of_met hnodup
              (show Met _ dep.1 (.remote pkg.source dep.2) from hmet dep hdep)⟩
      · intro name path hdep sub hsub
        rcases h.of_pathDep hdep with hmem | hnil
        · have hne : (readPathDepInfo disk name path).2.entries ≠ [] := List.ne_nil_of_mem hsub
          exact hmeets (hmanifests name path hmem (h.own name path hmem hne) sub hsub)
        · rw [hnil] at hsub
          cases hsub
      · rw [hcons.built.names]
        exact hnodup

/-- A path root that needs `http`, which needs `serde`. -/
def routerRoots : HashMap DepSpec := AList.singleton "app" (.path "../app")

def routerDisk : Disk := fun path =>
  if path = "../app" then
    some ⟨"1.0.0", AList.singleton "http" (.remote "http" ⟨.tilde, .new 0 3 0⟩)⟩
  else none

def routerRegistry : PackageRegistry :=
  ((PackageRegistry.new.add ⟨"serde", .new 1 0 0, "github:kryos-lang/serde", ∅, none⟩).add
    ⟨"serde", .new 1 2 0, "github:kryos-lang/serde", ∅, none⟩).add
      ⟨"http", .new 0 3 5, "github:kryos-lang/http",
        AList.singleton "serde" ⟨.caret, .new 1 0 0⟩, none⟩

theorem routerRoots_settled : PathsSettled routerDisk routerRegistry routerRoots := by
  have hroot : ∀ dep ∈ routerRoots.entries, dep = ⟨"app", .path "../app"⟩ := by decide
  have hdem : ∀ name spec, Demanded routerDisk routerRegistry routerRoots.entries name spec →
      (⟨name, spec⟩ : Entry DepSpec) ∈ ([⟨"app", .path "../app"⟩,
        ⟨"http", .remote "http" ⟨.tilde, .new 0 3 0⟩⟩,
        ⟨"serde", .remote "github:kryos-lang/http" ⟨.caret, .new 1 0 0⟩⟩] : List (Entry DepSpec)) :=
    fun name spec h => h.mem_of_closed (by decide)
  refine ⟨?_, ?_, ?_⟩
  · intro name path sub subPath hmem hsub
    cases hroot _ hmem
    have hsubs : ∀ dep ∈ (readPathDepInfo routerDisk "app" "../app").2.entries,
        ∀ q, dep.2 ≠ .path q := by
      intro dep hdep q hq
      have : ∀ dep ∈ (readPathDepInfo routerDisk "app" "../app").2.entries,
          dep = ⟨"http", .remote "http" ⟨.tilde, .new 0 3 0⟩⟩ := by decide
      rw [this dep hdep] at hq
      cases hq
    exact absurd rfl (hsubs _ hsub subPath)
  · intro name path hmem _ spec hdem'
    cases hroot _ hmem
    have hnil : otherRoots routerRoots "app" = [] := by decide
    rw [hnil] at hdem'
    have hmem : (⟨"app", spec⟩ : Entry DepSpec) ∈ ([] : List (Entry DepSpec)) :=
      hdem'.mem_of_closed (by decide)
    cases hmem
  · intro name path source req hpath hremote
    have h := hdem _ _ hpath
    have h' := hdem _ _ hremote
    simp only [List.mem_cons, Sigma.mk.injEq, List.not_mem_nil, or_false] at h h'
    grind

theorem resolve_sound_and_total_router :
    PathsSettled routerDisk routerRegistry routerRoots ∧
      SoundAndTotal .reversed routerDisk routerRegistry routerRoots :=
  ⟨routerRoots_settled, resolve_sound_and_total routerRoots_settled .reversed⟩

/-- The path root `a` has version 1.0.0; the registry package `b` asks for version 2 of it. -/
def shadowRoots : HashMap DepSpec :=
  (AList.singleton "b" (.remote "b" ⟨.caret, .new 1 0 0⟩)).insert "a" (.path "../a")

def shadowDisk : Disk := fun path => if path = "../a" then some ⟨"1.0.0", ∅⟩ else none

def shadowRegistry : PackageRegistry :=
  PackageRegistry.new.add
    ⟨"b", .new 1 0 0, "github:test/b", AList.singleton "a" ⟨.caret, .new 2 0 0⟩, none⟩

/-- The path root `a` has the path dependency `b`, whose manifest asks for `c`. -/
def nestedRoots : HashMap DepSpec := AList.singleton "a" (.path "../a")

def nestedDisk : Disk := fun path =>
  if path = "../a" then some ⟨"1.0.0", AList.singleton "b" (.path "../b")⟩
  else if path = "../b" then
    some ⟨"1.0.0", AList.singleton "c" (.remote "c" ⟨.caret, .new 1 0 0⟩)⟩
  else none

theorem skipped_manifest_and_failed_unwrap :
    ¬ SoundAndTotal .listed shadowDisk shadowRegistry shadowRoots ∧
      ¬ SoundAndTotal .listed nestedDisk .new nestedRoots := by
  constructor
  · rintro ⟨enough, result, hall, -, hpanic, -⟩
    have hrun : resolve .listed shadowDisk shadowRegistry 2 shadowRoots = .error .panicked := by
      decide
    have hmore := resolve_eq_of_le (le_max_left 2 enough) (by rw [hrun]; simp)
    rw [hall _ (le_max_right 2 enough), hrun] at hmore
    exact hpanic hmore
  · rintro ⟨enough, result, hall, -, -, hsound⟩
    have hrun : resolve .listed nestedDisk .new 0 nestedRoots =
        .ok ⟨[.ofPath "b" "../b" (.new 1 0 0) [], .ofPath "a" "../a" (.new 1 0 0) ["b"]]⟩ := by
      decide
    have hmore := resolve_eq_of_le (Nat.zero_le enough) (by rw [hrun]; simp)
    rw [hall _ le_rfl, hrun] at hmore
    have hroot : PathDep nestedDisk nestedRoots "a" "../a" := .root (by decide)
    have hdeep : PathDep nestedDisk nestedRoots "b" "../b" := .manifest hroot (by decide)
    have hmet := (hsound _ hmore).pathDeps "b" "../b" hdeep
      ⟨"c", .remote "c" ⟨.caret, .new 1 0 0⟩⟩ (by decide)
    obtain ⟨node, hnode, -⟩ := hmet
    have hnone : ResolvedGraph.get
        ⟨[.ofPath "b" "../b" (.new 1 0 0) [], .ofPath "a" "../a" (.new 1 0 0) ["b"]]⟩ "c"
        = none := by decide
    rw [hnone] at hnode
    cases hnode

end Kryos.Package

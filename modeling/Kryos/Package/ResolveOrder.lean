import Kryos.Package.ResolveSound

/-!
# Order of enumeration

The tables of the source are hash maps whose iteration order changes from run to run, and the
resolver fixes the version of a package by the first requirement it meets. Two runs over the same
tables are compared here.

The runs agree when all requirements that can be met for a name pick the same package. Then the
packages of a graph are determined by the requirements alone, a graph found in one order shows that
no order can run into a cycle or a conflict, and the other run succeeds as well.

## Main results

* `resolve_order_independent` — requirements that agree give one outcome for all orders
* `first_requirement_decides` — of two compatible requirements the order can make one fail
-/

namespace Kryos.Package

/-- The packages of a graph as far as a lock file pins them. -/
def ResolvedGraph.pinned (graph : ResolvedGraph) : List (String × Version × PackageSource) :=
  graph.packages.map fun p => (p.name, p.version, p.source)

/-- The same packages, or an error of the source both times. -/
def SameOutcome : Except Failure ResolvedGraph → Except Failure ResolvedGraph → Prop
  | .ok graph, .ok graph' => ∀ p, p ∈ graph.pinned ↔ p ∈ graph'.pinned
  | .error (.error _), .error (.error _) => True
  | _, _ => False

/-- At every sufficient depth, the outcome is the same for all orders. -/
def OrderIndependent (disk : Disk) (registry : PackageRegistry) (rootDeps : HashMap DepSpec) : Prop :=
  ∀ order order', ∃ enough, ∀ fuel ≥ enough,
    SameOutcome (resolve order disk registry fuel rootDeps)
      (resolve order' disk registry fuel rootDeps)

/-- The requirements that can be met for one name agree on the package. -/
structure Agreeing (disk : Disk) (registry : PackageRegistry) (rootDeps : HashMap DepSpec) :
    Prop where
  remote : ∀ name source source' req req',
    Demanded disk registry rootDeps.entries name (.remote source req) →
    Demanded disk registry rootDeps.entries name (.remote source' req') →
    registry.findBestMatch name req = registry.findBestMatch name req'
  kind : ∀ name path source req, Demanded disk registry rootDeps.entries name (.path path) →
    ¬ Demanded disk registry rootDeps.entries name (.remote source req)
  path : ∀ name path path', Demanded disk registry rootDeps.entries name (.path path) →
    Demanded disk registry rootDeps.entries name (.path path') → path = path'
  own : ∀ name path, ⟨name, .path path⟩ ∈ rootDeps.entries →
    (readPathDepInfo disk name path).2.entries ≠ [] →
    ∀ spec, ¬ Demanded disk registry (otherRoots rootDeps name) name spec

section

variable {order : Enumeration} {disk : Disk} {registry : PackageRegistry}
  {rootDeps : HashMap DepSpec} {fuel : Nat} {name hint requiredBy : String} {req : VersionReq}
  {s t : Resolver}

theorem Agreeing.admitted (h : Agreeing disk registry rootDeps) :
    Admitted disk registry rootDeps.entries :=
  fun name path source req hpath hremote => absurd hremote (h.kind name path source req hpath)

section

variable {table : List (Entry ResolvedPackage)} {e : Entry ResolvedPackage}
  (h : Agreeing disk registry rootDeps) (hbuilt : Built disk registry rootDeps.entries table)
  (he : e ∈ table)

include h hbuilt he

/-- The entry of a name with a registry requirement is the best match of that requirement. -/
theorem Agreeing.origin_remote
    (hdem : Demanded disk registry rootDeps.entries e.1 (.remote hint req)) :
    ∃ pkg deps, registry.findBestMatch e.1 req = some pkg ∧ deps.Perm pkg.dependencies.keys ∧
      e.2 = .ofRegistry e.1 pkg deps ∧
      ∀ dep ∈ pkg.dependencies.entries, Satisfied table dep.1 dep.2 := by
  obtain ⟨path, _, hpath, -⟩ | ⟨source, req', pkg, deps, hdem', hbest, hperm, hnode, hmet⟩ :=
    hbuilt.origin he
  · exact absurd hdem (h.kind e.1 path hint req hpath)
  · rw [h.remote e.1 source hint req' req hdem' hdem] at hbest
    exact ⟨pkg, deps, hbest, hperm, hnode, hmet⟩

theorem Agreeing.origin_path {path : String}
    (hdem : Demanded disk registry rootDeps.entries e.1 (.path path)) :
    ∃ deps, e.2 = .ofPath e.1 path (readPathDepInfo disk e.1 path).1 deps := by
  obtain ⟨path', deps, hpath, hnode⟩ | ⟨source, req, -, -, hdem', -⟩ := hbuilt.origin he
  · rw [h.path e.1 path' path hpath hdem] at hnode
    exact ⟨deps, hnode⟩
  · exact absurd hdem' (h.kind e.1 path source req hdem)

end

/-! ## A graph found in one order -/

/-- A table that a resolution can end with: it has every name that is demanded. -/
structure Complete (disk : Disk) (registry : PackageRegistry) (rootDeps : HashMap DepSpec)
    (table : List (Entry ResolvedPackage)) : Prop where
  built : Built disk registry rootDeps.entries table
  nodup : table.NodupKeys
  all : ∀ name spec, Demanded disk registry rootDeps.entries name spec → ∃ e ∈ table, e.1 = name

theorem exists_of_met {table : List (Entry ResolvedPackage)} {name : String} {spec : DepSpec}
    (h : Met table name spec) : ∃ e ∈ table, e.1 = name := by
  cases spec with
  | remote source req =>
    obtain ⟨e, he, hname, -⟩ := h
    exact ⟨e, he, hname⟩
  | path path => exact h

theorem Agreeing.complete (h : Agreeing disk registry rootDeps)
    (hrun : (order.roots rootDeps).foldlM (resolveRoot order disk registry fuel) Resolver.init
      = .ok s) : Complete disk registry rootDeps s.resolved.entries := by
  obtain ⟨hcons, hroots, hmanifests⟩ := resolveRoots_spec hrun
  refine ⟨hcons.built, s.resolved.nodupKeys, ?_⟩
  intro name spec hdem
  induction hdem with
  | root hdep => exact exists_of_met (hroots _ hdep)
  | @manifest dep sub path hdep hpath hsub =>
    obtain ⟨name, spec⟩ := dep
    subst hpath
    have hown := h.own name path hdep (List.ne_nil_of_mem hsub)
    exact exists_of_met (hmanifests name path hdep hown sub hsub)
  | @registry name source req pkg sub hdem hbest hsub ih =>
    obtain ⟨e, he, rfl⟩ := ih
    obtain ⟨pkg', deps, hbest', -, -, hmet⟩ := h.origin_remote hcons.built he hdem
    obtain rfl : pkg' = pkg := Option.some.inj (hbest'.symm.trans hbest)
    obtain ⟨e', he', hname, -⟩ := hmet sub hsub
    exact ⟨e', he', hname⟩

/-- Two tables that have every name that is demanded have the same packages. -/
theorem Agreeing.pinned_subset (h : Agreeing disk registry rootDeps)
    {table table' : List (Entry ResolvedPackage)} (ht : Complete disk registry rootDeps table)
    (ht' : Complete disk registry rootDeps table') {p : String × Version × PackageSource}
    (hp : p ∈ ResolvedGraph.pinned ⟨table.map Sigma.snd⟩) :
    p ∈ ResolvedGraph.pinned ⟨table'.map Sigma.snd⟩ := by
  rw [ResolvedGraph.pinned, List.map_map, List.mem_map] at hp
  obtain ⟨e, he, rfl⟩ := hp
  rw [ResolvedGraph.pinned, List.map_map, List.mem_map]
  obtain ⟨path, deps, hdem, hnode⟩ | ⟨source, req, pkg, deps, hdem, hbest, -, hnode, -⟩ :=
    ht.built.origin he
  · obtain ⟨e', he', hname⟩ := ht'.all _ _ hdem
    refine ⟨e', he', ?_⟩
    rw [← hname] at hdem
    obtain ⟨deps', hnode'⟩ := h.origin_path ht'.built he' hdem
    simp only [Function.comp_apply, hnode, hnode', ResolvedPackage.ofPath, hname]
  · obtain ⟨e', he', hname⟩ := ht'.all _ _ hdem
    refine ⟨e', he', ?_⟩
    rw [← hname] at hdem hbest
    obtain ⟨pkg', deps', hbest', -, hnode', -⟩ := h.origin_remote ht'.built he' hdem
    obtain rfl : pkg' = pkg := Option.some.inj (hbest'.symm.trans hbest)
    simp only [Function.comp_apply, hnode, hnode', ResolvedPackage.ofRegistry, hname]

/-! ## The other order -/

variable {table : List (Entry ResolvedPackage)}

/-- With a complete table at hand no call can fail: the names under way stand above `name` in
it. -/
theorem Agreeing.resolveRecursive_ne_error {f : Failure} (h : Agreeing disk registry rootDeps)
    (ht : Complete disk registry rootDeps table)
    (hdem : Demanded disk registry rootDeps.entries name (.remote hint req))
    (hs : Consistent disk registry rootDeps.entries s)
    (habove : ∀ n ∈ s.visiting, table.keys.idxOf n < table.keys.idxOf name)
    (hfuel : room registry s < fuel) :
    resolveRecursive order registry fuel name req hint requiredBy s ≠ .error f := by
  induction fuel generalizing name req hint requiredBy s with
  | zero => omega
  | succ fuel ih =>
    intro herror
    obtain ⟨e, he, rfl⟩ := ht.all _ _ hdem
    obtain ⟨pkg, deps, hbest, hperm, hnode, -⟩ := h.origin_remote ht.built he hdem
    obtain ⟨hzero, -⟩ | ⟨hvisiting, -⟩ | ⟨-, node, hlookup, hmatch, -⟩ | ⟨-, -, hnone, -⟩ |
      ⟨hname, -, k, pkg', hk, hbest', hdeps⟩ := resolveRecursive_error herror
    · omega
    · exact absurd (habove _ hvisiting) (lt_irrefl _)
    · have hmem := mem_entries_of_lookup hlookup
      obtain ⟨pkg', deps', hbest', -, hnode', -⟩ := h.origin_remote hs.built hmem hdem
      obtain ⟨-, -, -, hadmits⟩ := PackageRegistry.findBestMatch_some hbest'
      have hversion : node.version = pkg'.version := congrArg ResolvedPackage.version hnode'
      rw [hversion] at hmatch
      exact hmatch hadmits
    · rw [hbest] at hnone
      cases hnone
    · obtain rfl : k = fuel := by omega
      obtain rfl : pkg = pkg' := Option.some.inj (hbest.symm.trans hbest')
      obtain ⟨dep, hdep, t, ht', hvisiting, hcall⟩ := resolveDeps_error hdem hbest hs hdeps
      refine ih (.registry hdem hbest hdep) ht' ?_ ?_ hcall
      · have hkey : dep.1 ∈ e.2.dependencies := by
          rw [hnode]
          exact hperm.mem_iff.mpr (List.mem_keys_of_mem hdep)
        have hbelow :=
          (ht.built.idxOf_lt ht.nodup he ⟨pkg.source, by rw [hnode]; rfl⟩ hkey).2
        intro n hn
        rw [hvisiting] at hn
        rcases Finset.mem_insert.mp hn with rfl | hn
        · exact hbelow
        · exact (habove n hn).trans hbelow
      · have hlt := room_lt_of_visiting hname (PackageRegistry.mem_of_findBestMatch hbest)
          hvisiting
        omega

/-- If one order finds a graph, so does any other. -/
theorem Agreeing.resolve_ne_error {f : Failure} (h : Agreeing disk registry rootDeps)
    (ht : Complete disk registry rootDeps table) (hfuel : registry.depth ≤ fuel) :
    resolve order disk registry fuel rootDeps ≠ .error f := by
  intro herror
  obtain ⟨name, req, hint, requiredBy, t, hdem, hcons, hidle, hcall⟩ := resolve_error herror
  refine h.resolveRecursive_ne_error ht hdem hcons ?_
    ((room_lt_depth registry t).trans_le hfuel) hcall
  rw [hidle]
  intro n hn
  cases hn

theorem resolve_ok {graph : ResolvedGraph}
    (h : resolve order disk registry fuel rootDeps = .ok graph) :
    ∃ s, (order.roots rootDeps).foldlM (resolveRoot order disk registry fuel) Resolver.init
      = .ok s ∧ graph = ⟨s.resolved.entries.map Sigma.snd⟩ := by
  rw [resolve] at h
  split at h
  · cases h
  · rename_i s hs
    cases h
    exact ⟨s, hs, rfl⟩

end

theorem resolve_order_independent {disk : Disk} {registry : PackageRegistry}
    {rootDeps : HashMap DepSpec} (h : Agreeing disk registry rootDeps) :
    OrderIndependent disk registry rootDeps := by
  intro order order'
  refine ⟨registry.depth, ?_⟩
  intro fuel hfuel
  cases hrun : resolve order disk registry fuel rootDeps with
  | ok graph =>
    obtain ⟨s, hs, rfl⟩ := resolve_ok hrun
    have ht := h.complete hs
    cases hrun' : resolve order' disk registry fuel rootDeps with
    | ok graph' =>
      obtain ⟨s', hs', rfl⟩ := resolve_ok hrun'
      have ht' := h.complete hs'
      exact fun p => ⟨h.pinned_subset ht ht', h.pinned_subset ht' ht⟩
    | error f => exact absurd hrun' (h.resolve_ne_error ht hfuel)
  | error f =>
    obtain ⟨e, rfl⟩ := resolve_fails h.admitted hfuel hrun
    cases hrun' : resolve order' disk registry fuel rootDeps with
    | ok graph' =>
      obtain ⟨s', hs', rfl⟩ := resolve_ok hrun'
      exact absurd hrun (h.resolve_ne_error (h.complete hs') hfuel)
    | error f' =>
      obtain ⟨e', rfl⟩ := resolve_fails h.admitted hfuel hrun'
      trivial

theorem resolve_order_independent_router :
    Agreeing routerDisk routerRegistry routerRoots ∧
      OrderIndependent routerDisk routerRegistry routerRoots := by
  have hsettled := routerRoots_settled
  have hdem : ∀ name spec, Demanded routerDisk routerRegistry routerRoots.entries name spec →
      (⟨name, spec⟩ : Entry DepSpec) ∈ ([⟨"app", .path "../app"⟩,
        ⟨"http", .remote "http" ⟨.tilde, .new 0 3 0⟩⟩,
        ⟨"serde", .remote "github:kryos-lang/http" ⟨.caret, .new 1 0 0⟩⟩] : List (Entry DepSpec)) :=
    fun name spec h => h.mem_of_closed (by decide)
  simp only [List.mem_cons, Sigma.mk.injEq, List.not_mem_nil, or_false, heq_eq_eq] at hdem
  have hagree : Agreeing routerDisk routerRegistry routerRoots := by
    refine ⟨?_, ?_, ?_, hsettled.own⟩
    · intro name source source' req req' h h'
      have := hdem _ _ h
      have := hdem _ _ h'
      grind
    · intro name path source req h h'
      have := hdem _ _ h
      have := hdem _ _ h'
      grind
    · intro name path path' h h'
      have := hdem _ _ h
      have := hdem _ _ h'
      grind
  exact ⟨hagree, resolve_order_independent hagree⟩

/-- Both roots need `x`: `a` asks for `^1.0.0`, `b` for `=1.2.0`. -/
def rivalRoots : HashMap DepSpec :=
  (AList.singleton "b" (.remote "b" ⟨.caret, .new 1 0 0⟩)).insert "a"
    (.remote "a" ⟨.caret, .new 1 0 0⟩)

def rivalRegistry : PackageRegistry :=
  (((PackageRegistry.new.add ⟨"x", .new 1 2 0, "github:test/x", ∅, none⟩).add
    ⟨"x", .new 1 5 0, "github:test/x", ∅, none⟩).add
      ⟨"a", .new 1 0 0, "github:test/a", AList.singleton "x" ⟨.caret, .new 1 0 0⟩, none⟩).add
        ⟨"b", .new 1 0 0, "github:test/b", AList.singleton "x" ⟨.exact, .new 1 2 0⟩, none⟩

theorem first_requirement_decides :
    ¬ OrderIndependent (fun _ => none) rivalRegistry rivalRoots := by
  intro h
  obtain ⟨enough, hsame⟩ := h .listed .reversed
  have hrun : resolve .listed (fun _ => none) rivalRegistry 3 rivalRoots =
      .error (.error (.versionConflict "x" "^1.0.0" "a" "=1.2.0" "b")) := by decide
  have hrun' : resolve .reversed (fun _ => none) rivalRegistry 3 rivalRoots =
      .ok ⟨[.ofRegistry "a" ⟨"a", .new 1 0 0, "github:test/a", ∅, none⟩ ["x"],
        .ofRegistry "b" ⟨"b", .new 1 0 0, "github:test/b", ∅, none⟩ ["x"],
        .ofRegistry "x" ⟨"x", .new 1 2 0, "github:test/x", ∅, none⟩ []]⟩ := by decide
  have hmore := resolve_eq_of_le (le_max_left 3 enough) (by rw [hrun]; simp)
  have hmore' := resolve_eq_of_le (le_max_left 3 enough) (by rw [hrun']; simp)
  have hmax := hsame _ (le_max_right 3 enough)
  rw [hmore, hmore', hrun, hrun'] at hmax
  exact hmax

end Kryos.Package

import Kryos.Driver.NodeSpans
import Kryos.Driver.PrivateImport
import Kryos.Lib.KeyedTable

/-!
# Spans of a merged module

`parse_module_file` reads every module into a source map of its own, so every file of a program is
file 0. A span of the merged module is then no more than a pair of offsets, and lambdas of two files
that lie at the same offsets share what the checker records about them.

The lexer and the parser are a parameter here. All that is used of them is that they stamp the file
id they are given on the spans.

## Main results

* `fileId_of_merged` — all of a merged module is in file 0
* `nodesKnown_iff` — the sets of files whose lambdas and `let` statements keep apart
-/

namespace Kryos.Driver

open Kryos.Ast

/-- The names and texts of the files read so far. -/
structure SourceMap where
  files : List (String × String)

def SourceMap.default : SourceMap := ⟨[]⟩

def SourceMap.addFile (sourceMap : SourceMap) (name source : String) : ℕ × SourceMap :=
  (sourceMap.files.length, ⟨sourceMap.files ++ [(name, source)]⟩)

/-- Lexer and parser: what they make of a text that is registered under a file id. -/
structure FrontEnd where
  parse : String → ℕ → Option Module
  stamps : ∀ {source fileId module}, parse source fileId = some module →
    ∀ d ∈ module.declarations, ∀ node ∈ keyedInDecl d, node.span.fileId = fileId

variable {Path : Type}

/-- The module files as texts. -/
structure SourceFiles (Path : Type) where
  resolveModulePath : List String → Path → Option Path
  canonicalize : Path → Path
  name : Path → String
  readSource : Path → Option String
  all : Finset Path
  mem_all : ∀ {segments importingFile path}, resolveModulePath segments importingFile = some path →
    canonicalize path ∈ all
  same_text : ∀ {path path'}, canonicalize path = canonicalize path' →
    readSource path = readSource path'

variable (frontEnd : FrontEnd) (sources : SourceFiles Path)

/-- Each file is parsed with a source map of its own. -/
def parseModuleFile (path : Path) : Option Module := do
  let source ← sources.readSource path
  let (fileId, _) := SourceMap.default.addFile (sources.name path) source
  frontEnd.parse source fileId

def SourceFiles.toFiles : Files Path where
  resolveModulePath := sources.resolveModulePath
  canonicalize := sources.canonicalize
  parseModuleFile := parseModuleFile frontEnd sources
  all := sources.all
  mem_all := sources.mem_all
  same_text h := by
    rw [parseModuleFile, parseModuleFile, sources.same_text h]
    cases sources.readSource _ with
    | none => rfl
    | some source => rfl

variable [DecidableEq Path]

/-- A file as `compile_file_impl` sees it after the imports are resolved: what was imported, and the
root module. -/
def loadFile (path : Path) : Option (Resolution Path × Module) := do
  let root ← parseModuleFile frontEnd sources path
  let visited := {sources.canonicalize path}
  match resolveImports (sources.toFiles frontEnd) root path visited with
  | .ok resolution => return (resolution, root)
  | .error _ => none

/-- Imported declarations come first. -/
def mergedDecls (resolution : Resolution Path) (root : Module) : List Decl :=
  resolution.resolvedDecls.map Merged.decl ++ root.declarations

/-! ### Keys -/

def nodesOfKind (kind : NodeKind) (d : Decl) : List KeyedNode :=
  (keyedInDecl d).filter fun node => node.kind = kind

/-- The keys of the nodes of one kind. -/
def spansOf (kind : NodeKind) (d : Decl) : List Span := (nodesOfKind kind d).map KeyedNode.span

/-- Where they begin and end in their file. -/
def offsetsOf (kind : NodeKind) (d : Decl) : List (ℕ × ℕ) :=
  (nodesOfKind kind d).map fun node => (node.span.start, node.span.stop)

/-- Nodes have spans of their own, and get their own results back. -/
structure NodesKnown (kind : NodeKind) (decls : List Decl) : Prop where
  spans : (decls.flatMap (spansOf kind)).Nodup
  results : KeyedTable.OwnResults (decls.flatMap (spansOf kind))

/-- The declarations that are merged, as they stand in their files. -/
def pieces (path : Path) (resolution : Resolution Path) (root : Module) : List (Path × Decl) :=
  resolution.resolvedDecls.map (fun x => (x.origin, x.source)) ++
    root.declarations.map fun d => (path, d)

/-- No two nodes begin and end at the same offsets, be it in one file or in two. -/
structure OffsetsDistinct (kind : NodeKind) (pieces : List (Path × Decl)) : Prop where
  within : ∀ file, ((pieces.filter fun p => p.1 = file).flatMap fun p => offsetsOf kind p.2).Nodup
  across : ∀ p ∈ pieces, ∀ q ∈ pieces, p.1 ≠ q.1 → (offsetsOf kind p.2).Disjoint (offsetsOf kind q.2)

/-! ### File 0 -/

variable {frontEnd sources}

omit [DecidableEq Path] in
theorem fileId_of_parse {path : Path} {module : Module}
    (h : parseModuleFile frontEnd sources path = some module) {d : Decl}
    (hd : d ∈ module.declarations) : ∀ node ∈ keyedInDecl d, node.span.fileId = 0 := by
  rw [parseModuleFile] at h
  cases hread : sources.readSource path with
  | none =>
    rw [hread] at h
    cases h
  | some source =>
    rw [hread] at h
    exact frontEnd.stamps h d hd

omit [DecidableEq Path] in
theorem keyed_of_mergedFrom {path : Path} {decls : List Decl} {i : ImportPath}
    {selection : Selection} {x : Merged Path} (hx : x ∈ mergedFrom path decls i selection) :
    x.source ∈ decls ∧ keyedInDecl x.decl = keyedInDecl x.source := by
  cases selection with
  | none =>
    obtain ⟨d, hd, rfl⟩ := List.mem_map.mp hx
    exact ⟨List.mem_of_mem_filter hd, rfl⟩
  | some selected =>
    obtain ⟨d, hd, rfl⟩ := List.mem_map.mp hx
    exact ⟨List.mem_of_mem_filter hd, keyedInDecl_mergeDecl _ d⟩

section Load

variable {path : Path} {resolution : Resolution Path} {root : Module}
  (h : loadFile frontEnd sources path = some (resolution, root))
include h

theorem loadFile_parses : parseModuleFile frontEnd sources path = some root ∧
    resolveImports (sources.toFiles frontEnd) root path {sources.canonicalize path} =
      .ok resolution := by
  rw [loadFile] at h
  cases hparse : parseModuleFile frontEnd sources path with
  | none =>
    rw [hparse] at h
    cases h
  | some module =>
    rw [hparse] at h
    cases hresolve : resolveImports (sources.toFiles frontEnd) module path
        {sources.canonicalize path} with
    | error e =>
      simp only [bind, Option.bind, hresolve] at h
      cases h
    | ok r =>
      simp only [bind, Option.bind, hresolve] at h
      cases h
      exact ⟨rfl, hresolve⟩

theorem keyed_of_resolved {x : Merged Path} (hx : x ∈ resolution.resolvedDecls) :
    keyedInDecl x.decl = keyedInDecl x.source ∧
      ∀ node ∈ keyedInDecl x.source, node.span.fileId = 0 := by
  obtain ⟨unions, -, -, hmem⟩ := resolveImports_ok (loadFile_parses h).2
  obtain ⟨p, -, file, module, -, hparse, hmerged⟩ := (hmem x).mp hx
  obtain ⟨hsource, hkeyed⟩ := keyed_of_mergedFrom hmerged
  exact ⟨hkeyed, fileId_of_parse hparse hsource⟩

/-- **All of a merged module is in file 0.** -/
theorem fileId_of_merged : ∀ p ∈ pieces path resolution root, ∀ node ∈ keyedInDecl p.2,
    node.span.fileId = 0 := by
  intro p hp
  obtain himported | hown := List.mem_append.mp hp
  · obtain ⟨x, hx, rfl⟩ := List.mem_map.mp himported
    exact (keyed_of_resolved h hx).2
  · obtain ⟨d, hd, rfl⟩ := List.mem_map.mp hown
    exact fileId_of_parse (loadFile_parses h).1 hd

theorem spans_of_merged (kind : NodeKind) : (mergedDecls resolution root).flatMap (spansOf kind) =
    ((pieces path resolution root).flatMap fun p => offsetsOf kind p.2).map
      fun o => ⟨0, o.1, o.2⟩ := by
  have hpiece : ∀ p ∈ pieces path resolution root,
      spansOf kind p.2 = (offsetsOf kind p.2).map fun o => (⟨0, o.1, o.2⟩ : Span) := by
    intro p hp
    rw [spansOf, offsetsOf, List.map_map]
    refine List.map_congr_left fun node hnode => ?_
    show node.span = ⟨0, node.span.start, node.span.stop⟩
    rw [← fileId_of_merged h p hp node (List.mem_of_mem_filter hnode)]
  have himported : resolution.resolvedDecls.flatMap (fun x => spansOf kind x.decl) =
      resolution.resolvedDecls.flatMap fun x => spansOf kind x.source := by
    refine List.flatMap_congr fun x hx => ?_
    rw [spansOf, spansOf, nodesOfKind, nodesOfKind, (keyed_of_resolved h hx).1]
  calc (mergedDecls resolution root).flatMap (spansOf kind)
      = (pieces path resolution root).flatMap fun p => spansOf kind p.2 := by
        rw [mergedDecls, pieces, List.flatMap_append, List.flatMap_append, List.flatMap_map,
          List.flatMap_map, List.flatMap_map, himported]
    _ = (pieces path resolution root).flatMap fun p =>
          (offsetsOf kind p.2).map fun o => ⟨0, o.1, o.2⟩ := List.flatMap_congr hpiece
    _ = _ := (List.map_flatMap ..).symm

/-- **Which files keep their nodes apart.** -/
theorem nodesKnown_iff : (∀ kind, NodesKnown kind (mergedDecls resolution root)) ↔
    ∀ kind, OffsetsDistinct kind (pieces path resolution root) := by
  refine forall_congr' fun kind => ?_
  have hinj : Function.Injective fun o : ℕ × ℕ => (⟨0, o.1, o.2⟩ : Span) := by
    intro o o' heq
    exact Prod.ext (congrArg Span.start heq) (congrArg Span.stop heq)
  have hspans : ((mergedDecls resolution root).flatMap (spansOf kind)).Nodup ↔
      OffsetsDistinct kind (pieces path resolution root) := by
    rw [spans_of_merged h, List.nodup_map_iff hinj, KeyedTable.nodup_flatMap_iff_sources Prod.fst]
    exact ⟨fun ⟨hwithin, hacross⟩ => ⟨hwithin, hacross⟩, fun ⟨hwithin, hacross⟩ => ⟨hwithin, hacross⟩⟩
  rw [← hspans]
  exact ⟨fun hknown => hknown.spans, fun hnodup => ⟨hnodup, KeyedTable.ownResults_iff.mpr hnodup⟩⟩

end Load

/-! ### Two files with a `let` at the same place -/

/-- A function with the statement `let x = []` at these offsets. -/
def functionWithLet (name : String) (fileId start stop : ℕ) : Decl :=
  plainFunction name [.letStmt "x" false none (some (.arrayLiteral [] ⟨fileId, start, stop⟩)) none
    ⟨fileId, start, stop⟩]

/-- The second text is as long as the first import, so the functions begin at the same offset. -/
def appText : String := "use tools\nfn main() \x7b let x = [] \x7d"

def toolsText : String := "//       \nfn tool() \x7b let x = [] \x7d"

def clashFrontEnd : FrontEnd where
  parse source fileId :=
    if source = appText then
      some ⟨"app", [.importDecl ⟨["tools"], none, [], ⟨fileId, 4, 9⟩⟩ [] ⟨fileId, 0, 9⟩,
        functionWithLet "main" fileId 22 32], ⟨fileId, 0, 34⟩⟩
    else if source = toolsText then
      some ⟨"tools", [functionWithLet "tool" fileId 22 32], ⟨fileId, 0, 34⟩⟩
    else none
  stamps {source fileId module} h := by
    have hlet : ∀ name, ∀ node ∈ keyedInDecl (functionWithLet name fileId 22 32),
        node.span.fileId = fileId := by
      intro name node hnode
      rw [List.mem_singleton.mp hnode]
    split at h
    · cases h
      refine List.forall_mem_cons.mpr ⟨nofun, List.forall_mem_singleton.mpr (hlet "main")⟩
    · split at h
      · cases h
        exact List.forall_mem_singleton.mpr (hlet "tool")
      · cases h

def clashSources : SourceFiles (Fin 2) where
  resolveModulePath segments _ := if segments = ["tools"] then some 1 else none
  canonicalize := id
  name path := if path = 0 then "app.kry" else "tools.kry"
  readSource path := if path = 0 then some appText else some toolsText
  all := {0, 1}
  mem_all {_ _ path} _ := (by decide : ∀ p : Fin 2, p ∈ ({0, 1} : Finset (Fin 2))) path
  same_text h := congrArg (fun path : Fin 2 => if path = 0 then some appText else some toolsText) h

theorem clash_loads : ∃ r root, loadFile clashFrontEnd clashSources 0 = some (r, root) := by
  have hok : (loadFile clashFrontEnd clashSources 0).isSome = true := by decide
  obtain ⟨⟨r, root⟩, hload⟩ := Option.isSome_iff_exists.mp hok
  exact ⟨r, root, hload⟩

theorem nodesKnown_iff_clash : ∃ r root, loadFile clashFrontEnd clashSources 0 = some (r, root) ∧
    ((∀ kind, NodesKnown kind (mergedDecls r root)) ↔
      ∀ kind, OffsetsDistinct kind (pieces 0 r root)) := by
  obtain ⟨r, root, hload⟩ := clash_loads
  exact ⟨r, root, hload, nodesKnown_iff hload⟩

/-- The two `let` statements share one entry. -/
theorem lets_of_two_files_clash : ∃ r root, loadFile clashFrontEnd clashSources 0 = some (r, root) ∧
    ¬ ∀ kind, NodesKnown kind (mergedDecls r root) := by
  have hspans : ((loadFile clashFrontEnd clashSources 0).map fun p =>
      (mergedDecls p.1 p.2).flatMap (spansOf .letStmt)) = some [⟨0, 22, 32⟩, ⟨0, 22, 32⟩] := by
    decide +kernel
  obtain ⟨r, root, hload⟩ := clash_loads
  refine ⟨r, root, hload, fun hknown => ?_⟩
  rw [hload] at hspans
  have hlist : (mergedDecls r root).flatMap (spansOf .letStmt) = [⟨0, 22, 32⟩, ⟨0, 22, 32⟩] :=
    Option.some.inj hspans
  have hnodup := (hknown .letStmt).spans
  rw [hlist] at hnodup
  exact absurd hnodup (by decide)

end Kryos.Driver

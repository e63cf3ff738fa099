import Mathlib
import Kryos.Lib.FallibleLoop
import Kryos.Lib.ListRel
import Kryos.Lib.PrefixFree

/-!
# The content checksum of a package

A package is hashed file by file: the manifest, then every `.kry` file under `src/` and `stdlib/`,
each as its relative path and its bytes with the lengths in front, in the order of the paths. The
compiler reads `src/` if there is one and the whole directory otherwise.

With lengths in front, the hashed text determines the files it was made of. What it does not
determine is what was left out: without a `src/` the compiler sees files that are not hashed. A path
is hashed as text, so it is also a matter of how a file name becomes text: a name that is not UTF-8
loses bytes, and a backslash in a name becomes a slash.

## Main results

* `hashed_eq_of_contentChecksum_eq` — two packages with one checksum have the same hashed files
* `checksum_covers_iff` — when they show the same files to the compiler
-/

namespace Kryos.Package

open PrefixFree

/-! ## Directories -/

abbrev Bytes := List UInt8

/-- A file name is any text of bytes without a slash. -/
abbrev FileName := {name : Bytes // (47 : UInt8) ∉ name}

mutual

inductive Node where
  | file (content : Bytes)
  | dir (entries : DirEntries)

/-- A directory, in the order in which `read_dir` lists it. -/
inductive DirEntries where
  | nil
  | cons (name : FileName) (node : Node) (rest : DirEntries)

end

namespace DirEntries

def names : DirEntries → List FileName
  | nil => []
  | cons name _ rest => name :: rest.names

def find (entries : DirEntries) (wanted : FileName) : Option Node :=
  match entries with
  | nil => none
  | cons name node rest => if name = wanted then some node else rest.find wanted

/-- The other entries. -/
def without (entries : DirEntries) (unwanted : FileName) : DirEntries :=
  match entries with
  | nil => nil
  | cons name node rest => if name = unwanted then rest else cons name node (rest.without unwanted)

end DirEntries

/-- A file that was met on the way through a directory: the names on the path to it, and what is in
it. -/
abbrev FoundFile := List FileName × Bytes

/-- `Path::extension` is `kry`: something, then `.kry`. -/
def hasKryExtension (name : FileName) : Bool :=
  ".kry".toUTF8.toList.isSuffixOf name.1 && 4 < name.1.length

mutual

/-- The `.kry` files at a path, which ends in `name`. -/
def Node.kryFiles (dirs : List FileName) (name : FileName) : Node → List FoundFile
  | .file content => if hasKryExtension name then [(dirs ++ [name], content)] else []
  | .dir entries => entries.kryFiles (dirs ++ [name])

/-- `collect_kry_files` -/
def DirEntries.kryFiles (dirs : List FileName) : DirEntries → List FoundFile
  | .nil => []
  | .cons name node rest => node.kryFiles dirs name ++ rest.kryFiles dirs

end

/-- The root of a package. -/
structure PackageDir where
  entries : DirEntries
  nodup : entries.names.Nodup

/-! ## File names as text -/

/-- A character of several bytes that is not complete: how many bytes are missing, the range of the
next one, and the bits so far. -/
structure Pending where
  missing : ℕ
  low : ℕ
  high : ℕ
  bits : ℕ

/-- What a byte begins. -/
def beginChar (b : ℕ) : List Char × Option Pending :=
  if b < 0x80 then ([Char.ofNat b], none)
  else if 0xC2 ≤ b ∧ b ≤ 0xDF then ([], some ⟨0, 0x80, 0xBF, b - 0xC0⟩)
  else if b = 0xE0 then ([], some ⟨1, 0xA0, 0xBF, 0⟩)
  else if b = 0xED then ([], some ⟨1, 0x80, 0x9F, 0xD⟩)
  else if 0xE1 ≤ b ∧ b ≤ 0xEF then ([], some ⟨1, 0x80, 0xBF, b - 0xE0⟩)
  else if b = 0xF0 then ([], some ⟨2, 0x90, 0xBF, 0⟩)
  else if 0xF1 ≤ b ∧ b ≤ 0xF3 then ([], some ⟨2, 0x80, 0xBF, b - 0xF0⟩)
  else if b = 0xF4 then ([], some ⟨2, 0x80, 0x8F, 4⟩)
  else (['\uFFFD'], none)

/-- `to_string_lossy`: every maximal piece that is the front of a character but not a character, and
every byte that begins none, becomes U+FFFD. -/
def decodeLossy : Option Pending → Bytes → List Char
  | none, [] => []
  | some _, [] => ['\uFFFD']
  | none, b :: bs =>
    match beginChar b.toNat with
    | (cs, pending) => cs ++ decodeLossy pending bs
  | some p, b :: bs =>
    if p.low ≤ b.toNat ∧ b.toNat ≤ p.high then
      let bits := 64 * p.bits + (b.toNat - 0x80)
      match p.missing with
      | 0 => Char.ofNat bits :: decodeLossy none bs
      | n + 1 => decodeLossy (some ⟨n, 0x80, 0xBF, bits⟩) bs
    else
      match beginChar b.toNat with
      | (cs, pending) => '\uFFFD' :: (cs ++ decodeLossy pending bs)

/-- The bytes of a text. -/
def utf8 (s : List Char) : Bytes := s.flatMap String.utf8EncodeChar

example : decodeLossy none [0x61, 0xC3, 0xA9, 0xE2, 0x82, 0xFF] = ['a', 'é', '\uFFFD', '\uFFFD'] := by
  decide

/-- A path as the system has it. -/
def pathBytes (path : List FileName) : Bytes := [47].intercalate (path.map Subtype.val)

/-- The text under which a file is hashed. -/
def relNorm (base : List Char) (path : List FileName) : List Char :=
  base ++ '/' :: (decodeLossy none (pathBytes path)).map fun c => if c = '\\' then '/' else c

/-! ## The checksum -/

inductive ChecksumError where
  | failedToReadDirectory (name : String)
  | failedToRead (rel : List Char)
  | nothingToChecksum
deriving DecidableEq

def fileName (s : String) (h : (47 : UInt8) ∉ utf8 s.toList := by decide) : FileName :=
  ⟨utf8 s.toList, h⟩

/-- The files of one of the hashed directories, if it is there. -/
def collectUnder (d : PackageDir) (base : String) (name : FileName) :
    Except ChecksumError (List (List Char × Node)) :=
  match d.entries.find name with
  | none => .ok []
  | some (.file _) => .error (.failedToReadDirectory base)
  | some (.dir entries) =>
    .ok ((entries.kryFiles []).map fun f => (relNorm base.toList f.1, .file f.2))

def readFile : List Char × Node → Except ChecksumError (List Char × Bytes)
  | (rel, .file content) => .ok (rel, content)
  | (rel, .dir _) => .error (.failedToRead rel)

/-- One file of the hashed text. -/
def frame (f : List Char × Bytes) : Bytes :=
  (LittleEndian.encode 4 (utf8 f.1).length ++ utf8 f.1) ++
    (LittleEndian.encode 8 f.2.length ++ f.2)

def relLe (f g : List Char × Node) : Bool := decide (f.1 ≤ g.1)

def manifestFile (d : PackageDir) : List (List Char × Node) :=
  match d.entries.find (fileName "kryos.toml") with
  | none => []
  | some node => [("kryos.toml".toList, node)]

/-- The files that are hashed, in order. -/
def hashedFiles (d : PackageDir) : Except ChecksumError (List (List Char × Bytes)) := do
  let src ← collectUnder d "src" (fileName "src")
  let stdlib ← collectUnder d "stdlib" (fileName "stdlib")
  let files := manifestFile d ++ src ++ stdlib
  if files.isEmpty then throw .nothingToChecksum
  (files.mergeSort relLe).mapM readFile

def contentChecksum (sha256Hex : Bytes → String) (d : PackageDir) : Except ChecksumError String := do
  let files ← hashedFiles d
  return "sha256:" ++ sha256Hex (files.flatMap frame)

/-! ## What the compiler sees -/

/-- The directory that `package_src_path` exposes. -/
def exposedDir (d : PackageDir) : DirEntries :=
  match d.entries.find (fileName "src") with
  | some (.dir entries) => entries
  | _ => d.entries

/-- The `.kry` files in it. -/
def exposedFiles (d : PackageDir) : Set FoundFile :=
  {f | f ∈ (exposedDir d).kryFiles []}

/-! ## Names -/

/-- Nothing about the path is lost when it becomes text. -/
structure Spelled (path : List FileName) : Prop where
  kept : utf8 (decodeLossy none (pathBytes path)) = pathBytes path
  noBackslash : (92 : UInt8) ∉ pathBytes path

theorem utf8_append (s t : List Char) : utf8 (s ++ t) = utf8 s ++ utf8 t := List.flatMap_append

theorem Spelled.utf8_relNorm {path : List FileName} (h : Spelled path) (base : List Char) :
    utf8 (relNorm base path) = utf8 base ++ 47 :: pathBytes path := by
  have hchar : ∀ c ∈ decodeLossy none (pathBytes path), c ≠ '\\' := by
    rintro c hc rfl
    refine h.noBackslash ?_
    rw [← h.kept]
    exact List.mem_flatMap.mpr ⟨'\\', hc, by decide⟩
  have hmap : (decodeLossy none (pathBytes path)).map (fun c => if c = '\\' then '/' else c) =
      decodeLossy none (pathBytes path) :=
    (List.map_congr_left fun c hc => if_neg (hchar c hc)).trans (List.map_id _)
  rw [relNorm, hmap, utf8_append]
  show utf8 base ++ (47 :: utf8 (decodeLossy none (pathBytes path))) = _
  rw [h.kept]

theorem pathBytes_inj {path path' : List FileName} (h : path ≠ []) (h' : path' ≠ [])
    (heq : pathBytes path = pathBytes path') : path = path' := by
  have hslash : ∀ p : List FileName, ∀ l ∈ p.map Subtype.val, (47 : UInt8) ∉ l := by
    intro p l hl
    obtain ⟨name, -, rfl⟩ := List.mem_map.mp hl
    exact name.2
  have hsplit := congrArg (List.splitOn 47) heq
  rw [pathBytes, pathBytes, List.splitOn_intercalate 47 (hslash path) (mt List.map_eq_nil_iff.mp h),
    List.splitOn_intercalate 47 (hslash path') (mt List.map_eq_nil_iff.mp h')] at hsplit
  exact List.map_injective_iff.mpr Subtype.val_injective hsplit

/-! ## The files of a directory -/

mutual

theorem Node.kryFiles_eq_map (dirs : List FileName) (name : FileName) :
    ∀ node : Node, node.kryFiles dirs name =
      (node.kryFiles [] name).map fun f => (dirs ++ f.1, f.2)
  | .file content => by
    rw [Node.kryFiles, Node.kryFiles]
    split <;> rfl
  | .dir entries => by
    rw [Node.kryFiles, Node.kryFiles, DirEntries.kryFiles_eq_map (dirs ++ [name]) entries,
      DirEntries.kryFiles_eq_map ([] ++ [name]) entries, List.map_map]
    refine List.map_congr_left fun f _ => ?_
    simp

theorem DirEntries.kryFiles_eq_map (dirs : List FileName) :
    ∀ entries : DirEntries, entries.kryFiles dirs =
      (entries.kryFiles []).map fun f => (dirs ++ f.1, f.2)
  | .nil => rfl
  | .cons name node rest => by
    rw [DirEntries.kryFiles, DirEntries.kryFiles, List.map_append, Node.kryFiles_eq_map dirs name node,
      DirEntries.kryFiles_eq_map dirs rest]

end

variable {f : FoundFile}

/-- A found file is at a path through an entry. -/
theorem Node.head?_of_mem_kryFiles {name : FileName} {node : Node} (h : f ∈ node.kryFiles [] name) :
    f.1.head? = some name := by
  cases node with
  | file content =>
    rw [Node.kryFiles] at h
    split at h
    · rw [List.mem_singleton.mp h]
      rfl
    · cases h
  | dir entries =>
    rw [Node.kryFiles, DirEntries.kryFiles_eq_map] at h
    obtain ⟨g, -, rfl⟩ := List.mem_map.mp h
    rfl

variable {entries : DirEntries}

theorem DirEntries.head?_of_mem_kryFiles (h : f ∈ entries.kryFiles []) :
    ∃ name ∈ entries.names, f.1.head? = some name := by
  induction entries using DirEntries.rec (motive_1 := fun _ => True) with
  | file | dir => trivial
  | nil => cases h
  | cons name node rest _ ih =>
    rw [DirEntries.kryFiles, List.mem_append] at h
    rcases h with h | h
    · exact ⟨name, List.mem_cons_self, Node.head?_of_mem_kryFiles h⟩
    · obtain ⟨name', hname', hhead⟩ := ih h
      exact ⟨name', List.mem_cons_of_mem name hname', hhead⟩

theorem DirEntries.ne_nil_of_mem_kryFiles (h : f ∈ entries.kryFiles []) : f.1 ≠ [] := by
  obtain ⟨name, -, hhead⟩ := DirEntries.head?_of_mem_kryFiles h
  intro hnil
  rw [hnil] at hhead
  cases hhead

namespace DirEntries

theorem mem_kryFiles_iff (wanted : FileName) :
    f ∈ entries.kryFiles [] ↔
      (∃ node, entries.find wanted = some node ∧ f ∈ node.kryFiles [] wanted) ∨
        f ∈ (entries.without wanted).kryFiles [] := by
  induction entries using DirEntries.rec (motive_1 := fun _ => True) with
  | file | dir => trivial
  | nil => simp [find, without, kryFiles]
  | cons name node rest _ ih =>
    rw [kryFiles, List.mem_append, find, without]
    by_cases hname : name = wanted
    · subst hname
      simp
    · rw [if_neg hname, if_neg hname, kryFiles, List.mem_append, ih, or_left_comm]

theorem not_mem_names_without {wanted : FileName} (h : entries.names.Nodup) :
    wanted ∉ (entries.without wanted).names := by
  induction entries using DirEntries.rec (motive_1 := fun _ => True) with
  | file | dir => trivial
  | nil => exact List.not_mem_nil
  | cons name node rest _ ih =>
    rw [names, List.nodup_cons] at h
    rw [without]
    by_cases hname : name = wanted
    · rw [if_pos hname]
      exact hname ▸ h.1
    · rw [if_neg hname, names, List.mem_cons, not_or]
      exact ⟨Ne.symm hname, ih h.2⟩

end DirEntries

/-! ## What is hashed -/

variable {d : PackageDir}

namespace PackageDir

/-- The files of a hashed directory, or none if it is not there. -/
def under (d : PackageDir) (name : FileName) : List FoundFile :=
  match d.entries.find name with
  | some (.dir entries) => entries.kryFiles []
  | _ => []

theorem under_of_dir {name : FileName} (h : d.entries.find name = some (.dir entries)) :
    d.under name = entries.kryFiles [] := by
  rw [under, h]

theorem ne_nil_of_mem_under {name : FileName} (h : f ∈ d.under name) : f.1 ≠ [] := by
  rw [under] at h
  split at h
  · exact DirEntries.ne_nil_of_mem_kryFiles h
  · cases h

end PackageDir

/-- The name stands for a directory, or for nothing. -/
def IsDirOrAbsent (d : PackageDir) (name : FileName) : Prop :=
  ∀ content, d.entries.find name ≠ some (.file content)

theorem collectUnder_eq_ok {base : String} {name : FileName} {l : List (List Char × Node)}
    (h : collectUnder d base name = .ok l) :
    IsDirOrAbsent d name ∧
      l = (d.under name).map fun f => (relNorm base.toList f.1, .file f.2) := by
  rw [collectUnder] at h
  rw [IsDirOrAbsent, PackageDir.under]
  split at h
  · rename_i hfind
    cases h
    rw [hfind]
    exact ⟨nofun, rfl⟩
  · cases h
  · rename_i entries hfind
    cases h
    rw [hfind]
    exact ⟨nofun, rfl⟩

/-- What a package's hashed files are. -/
structure Hashed (d : PackageDir) (files : List (List Char × Bytes)) : Prop where
  src : IsDirOrAbsent d (fileName "src")
  stdlib : IsDirOrAbsent d (fileName "stdlib")
  mem_iff : ∀ f, f ∈ files ↔
    (∃ content, d.entries.find (fileName "kryos.toml") = some (.file content) ∧
      f = ("kryos.toml".toList, content)) ∨
    (∃ g ∈ d.under (fileName "src"), f = (relNorm "src".toList g.1, g.2)) ∨
    ∃ g ∈ d.under (fileName "stdlib"), f = (relNorm "stdlib".toList g.1, g.2)

theorem readFile_eq_ok {x : List Char × Node} {f : List Char × Bytes} :
    readFile x = .ok f ↔ x = (f.1, .file f.2) := by
  obtain ⟨rel, node⟩ := x
  cases node with
  | file content =>
    rw [readFile]
    constructor
    · intro h
      cases h
      rfl
    · intro h
      cases h
      rfl
  | dir entries => exact ⟨nofun, nofun⟩

theorem mem_iff_of_readFile {l : List (List Char × Node)} {files : List (List Char × Bytes)}
    (h : List.Forall₂ (fun x f => readFile x = .ok f) l files) (f : List Char × Bytes) :
    f ∈ files ↔ (f.1, Node.file f.2) ∈ l := by
  constructor
  · intro hf
    obtain ⟨x, hx, hread⟩ := ListRel.exists_mem_left h hf
    exact readFile_eq_ok.mp hread ▸ hx
  · intro hx
    obtain ⟨g, hg, hread⟩ := ListRel.exists_mem_right h hx
    have hgf := readFile_eq_ok.mp hread
    simp only [Prod.mk.injEq, Node.file.injEq] at hgf
    rwa [Prod.ext hgf.1 hgf.2]

theorem mem_map_file_iff {base : List Char} {l : List FoundFile} {f : List Char × Bytes} :
    (f.1, Node.file f.2) ∈ l.map (fun g => (relNorm base g.1, Node.file g.2)) ↔
      ∃ g ∈ l, f = (relNorm base g.1, g.2) := by
  rw [List.mem_map]
  constructor
  · rintro ⟨g, hg, heq⟩
    simp only [Prod.mk.injEq, Node.file.injEq] at heq
    exact ⟨g, hg, Prod.ext heq.1.symm heq.2.symm⟩
  · rintro ⟨g, hg, rfl⟩
    exact ⟨g, hg, rfl⟩

theorem mem_manifestFile_iff {f : List Char × Bytes} :
    (f.1, Node.file f.2) ∈ manifestFile d ↔
      ∃ content, d.entries.find (fileName "kryos.toml") = some (.file content) ∧
        f = ("kryos.toml".toList, content) := by
  rw [manifestFile]
  cases d.entries.find (fileName "kryos.toml") with
  | none => simp
  | some node =>
    rw [List.mem_singleton]
    constructor
    · intro h
      simp only [Prod.mk.injEq] at h
      exact ⟨f.2, congrArg some h.2.symm, Prod.ext h.1 rfl⟩
    · rintro ⟨content, hnode, rfl⟩
      rw [Option.some.inj hnode]

theorem hashed_of_hashedFiles {files : List (List Char × Bytes)} (h : hashedFiles d = .ok files) :
    Hashed d files := by
  rw [hashedFiles] at h
  cases hsrc : collectUnder d "src" (fileName "src") with
  | error e => rw [hsrc] at h; cases h
  | ok src =>
    cases hstdlib : collectUnder d "stdlib" (fileName "stdlib") with
    | error e => rw [hsrc, hstdlib] at h; cases h
    | ok stdlib =>
      rw [hsrc, hstdlib] at h
      obtain ⟨hsrcDir, rfl⟩ := collectUnder_eq_ok hsrc
      obtain ⟨hstdlibDir, rfl⟩ := collectUnder_eq_ok hstdlib
      simp only [bind, Except.bind] at h
      split at h
      · cases h
      · refine ⟨hsrcDir, hstdlibDir, fun f => ?_⟩
        rw [mem_iff_of_readFile (List.mapM_eq_ok.mp h) f, List.mem_mergeSort, List.mem_append,
          List.mem_append, or_assoc, mem_manifestFile_iff, mem_map_file_iff, mem_map_file_iff]

/-- Lengths that their fields hold. -/
def Fits (f : Bytes × Bytes) : Prop := f.1.length < 256 ^ 4 ∧ f.2.length < 256 ^ 8

/-- A hashed file as bytes. -/
def toBytes (f : List Char × Bytes) : Bytes × Bytes := (utf8 f.1, f.2)

/-- The hashed text, from the files as bytes. -/
def frameBytes (f : Bytes × Bytes) : Bytes :=
  (LittleEndian.encode 4 f.1.length ++ f.1) ++ (LittleEndian.encode 8 f.2.length ++ f.2)

theorem frameBytes_inj {l l' : List (Bytes × Bytes)} (h : ∀ f ∈ l, Fits f) (h' : ∀ f ∈ l', Fits f)
    (heq : l.flatMap frameBytes = l'.flatMap frameBytes) : l = l' := by
  have hcode := PrefixFree.prod (lengthPrefixed (littleEndian 4)) (lengthPrefixed (littleEndian 8))
  refine PrefixFree.flatMap_inj hcode (fun f hnil => ?_) h h' heq
  have hlen := congrArg List.length hnil
  simp at hlen

theorem hashed_of_contentChecksum {sha256Hex : Bytes → String} {c : String}
    (h : contentChecksum sha256Hex d = .ok c) :
    ∃ files, hashedFiles d = .ok files ∧
      c = "sha256:" ++ sha256Hex ((files.map toBytes).flatMap frameBytes) := by
  rw [contentChecksum] at h
  cases hfiles : hashedFiles d with
  | error e => rw [hfiles] at h; cases h
  | ok files =>
    rw [hfiles] at h
    refine ⟨files, rfl, ?_⟩
    rw [List.flatMap_map]
    cases h
    rfl

/-- **Two packages with one checksum have the same hashed files.** -/
theorem hashed_eq_of_contentChecksum_eq {sha256Hex : Bytes → String}
    (hinj : Function.Injective sha256Hex) {d' : PackageDir} {c : String}
    (h : contentChecksum sha256Hex d = .ok c) (h' : contentChecksum sha256Hex d' = .ok c)
    (hfits : ∀ files, hashedFiles d = .ok files → ∀ f ∈ files, Fits (toBytes f))
    (hfits' : ∀ files, hashedFiles d' = .ok files → ∀ f ∈ files, Fits (toBytes f)) :
    ∃ files files', Hashed d files ∧ Hashed d' files' ∧ files.map toBytes = files'.map toBytes := by
  obtain ⟨files, hfiles, rfl⟩ := hashed_of_contentChecksum h
  obtain ⟨files', hfiles', hc⟩ := hashed_of_contentChecksum h'
  refine ⟨files, files', hashed_of_hashedFiles hfiles, hashed_of_hashedFiles hfiles', ?_⟩
  have htext : sha256Hex _ = sha256Hex _ := (String.append_right_inj "sha256:").mp hc
  exact frameBytes_inj (List.forall_mem_map.mpr (hfits files hfiles))
    (List.forall_mem_map.mpr (hfits' files' hfiles')) (hinj htext)

/-- The bytes of the path of a file in a hashed directory. -/
def key (base : String) (path : List FileName) : Bytes := utf8 base.toList ++ 47 :: pathBytes path

theorem key_inj {base : String} {path path' : List FileName} (h : path ≠ []) (h' : path' ≠ [])
    (heq : key base path = key base path') : path = path' :=
  pathBytes_inj h h' (List.cons.inj (List.append_cancel_left heq)).2

theorem utf8_src : utf8 "src".toList = [115, 114, 99] := by decide

theorem utf8_stdlib : utf8 "stdlib".toList = [115, 116, 100, 108, 105, 98] := by decide

theorem utf8_manifest :
    utf8 "kryos.toml".toList = [107, 114, 121, 111, 115, 46, 116, 111, 109, 108] := by
  decide

theorem key_src_ne_key_stdlib (path path' : List FileName) :
    key "src" path ≠ key "stdlib" path' := by
  rw [key, key, utf8_src, utf8_stdlib]
  intro h
  cases h

theorem key_ne_manifest {base : String} (hbase : base = "src" ∨ base = "stdlib")
    (path : List FileName) : key base path ≠ utf8 "kryos.toml".toList := by
  rw [key, utf8_manifest]
  rcases hbase with rfl | rfl
  · rw [utf8_src]
    exact nofun
  · rw [utf8_stdlib]
    exact nofun

/-- A package whose hashed files have names that survive, and lengths that fit. -/
structure PackageDir.Plain (d : PackageDir) : Prop where
  src : ∀ f ∈ d.under (fileName "src"), Spelled f.1
  stdlib : ∀ f ∈ d.under (fileName "stdlib"), Spelled f.1
  fits : ∀ files, hashedFiles d = .ok files → ∀ f ∈ files, Fits (toBytes f)

theorem toBytes_relNorm {g : FoundFile} (h : Spelled g.1) (base : String) :
    toBytes (relNorm base.toList g.1, g.2) = (key base g.1, g.2) :=
  Prod.ext (h.utf8_relNorm base.toList) rfl

section Members

variable {d : PackageDir} {files : List (List Char × Bytes)}

/-- Every hashed file, as bytes. -/
theorem mem_map_toBytes_iff (hd : Hashed d files) (hp : d.Plain) {x : Bytes × Bytes} :
    x ∈ files.map toBytes ↔
      (∃ content, d.entries.find (fileName "kryos.toml") = some (.file content) ∧
        x = (utf8 "kryos.toml".toList, content)) ∨
      (∃ g ∈ d.under (fileName "src"), x = (key "src" g.1, g.2)) ∨
      ∃ g ∈ d.under (fileName "stdlib"), x = (key "stdlib" g.1, g.2) := by
  rw [List.mem_map]
  constructor
  · rintro ⟨f, hf, rfl⟩
    rcases (hd.mem_iff f).mp hf with ⟨content, hfind, rfl⟩ | ⟨g, hg, rfl⟩ | ⟨g, hg, rfl⟩
    · exact .inl ⟨content, hfind, rfl⟩
    · exact .inr (.inl ⟨g, hg, toBytes_relNorm (hp.src g hg) "src"⟩)
    · exact .inr (.inr ⟨g, hg, toBytes_relNorm (hp.stdlib g hg) "stdlib"⟩)
  · rintro (⟨content, hfind, rfl⟩ | ⟨g, hg, rfl⟩ | ⟨g, hg, rfl⟩)
    · exact ⟨_, (hd.mem_iff _).mpr (.inl ⟨content, hfind, rfl⟩), rfl⟩
    · exact ⟨_, (hd.mem_iff _).mpr (.inr (.inl ⟨g, hg, rfl⟩)), toBytes_relNorm (hp.src g hg) "src"⟩
    · exact ⟨_, (hd.mem_iff _).mpr (.inr (.inr ⟨g, hg, rfl⟩)),
        toBytes_relNorm (hp.stdlib g hg) "stdlib"⟩

theorem mem_under_src_iff (hd : Hashed d files) (hp : d.Plain) {g : FoundFile} (hg : g.1 ≠ []) :
    g ∈ d.under (fileName "src") ↔ (key "src" g.1, g.2) ∈ files.map toBytes := by
  rw [mem_map_toBytes_iff hd hp]
  constructor
  · exact fun h => .inr (.inl ⟨g, h, rfl⟩)
  · rintro (⟨content, -, heq⟩ | ⟨g', hg', heq⟩ | ⟨g', -, heq⟩)
    · exact absurd (congrArg Prod.fst heq) (key_ne_manifest (.inl rfl) g.1)
    · have hpath := key_inj hg (PackageDir.ne_nil_of_mem_under hg') (congrArg Prod.fst heq)
      rwa [show g = g' from Prod.ext hpath (Prod.mk.inj heq).2]
    · exact absurd (congrArg Prod.fst heq) (key_src_ne_key_stdlib g.1 g'.1)

theorem mem_under_stdlib_iff (hd : Hashed d files) (hp : d.Plain) {g : FoundFile} (hg : g.1 ≠ []) :
    g ∈ d.under (fileName "stdlib") ↔ (key "stdlib" g.1, g.2) ∈ files.map toBytes := by
  rw [mem_map_toBytes_iff hd hp]
  constructor
  · exact fun h => .inr (.inr ⟨g, h, rfl⟩)
  · rintro (⟨content, -, heq⟩ | ⟨g', -, heq⟩ | ⟨g', hg', heq⟩)
    · exact absurd (congrArg Prod.fst heq) (key_ne_manifest (.inr rfl) g.1)
    · exact absurd (congrArg Prod.fst heq).symm (key_src_ne_key_stdlib g'.1 g.1)
    · have hpath := key_inj hg (PackageDir.ne_nil_of_mem_under hg') (congrArg Prod.fst heq)
      rwa [show g = g' from Prod.ext hpath (Prod.mk.inj heq).2]

end Members

/-! ## What the compiler sees -/

/-- `src` is a directory. -/
def HasSrc (d : PackageDir) : Prop := ∃ entries, d.entries.find (fileName "src") = some (.dir entries)

/-- What the compiler sees of a package without `src`, besides `stdlib`. -/
def unhashedFiles (d : PackageDir) : Set FoundFile :=
  {f | f ∈ (d.entries.without (fileName "stdlib")).kryFiles []}

theorem exposedFiles_of_hasSrc (h : HasSrc d) :
    exposedFiles d = {f | f ∈ d.under (fileName "src")} := by
  obtain ⟨entries, hfind⟩ := h
  rw [exposedFiles, exposedDir, hfind, PackageDir.under_of_dir hfind]

theorem exposedFiles_of_not_hasSrc (h : ¬ HasSrc d) :
    exposedFiles d = {f | f ∈ d.entries.kryFiles []} := by
  rw [exposedFiles, exposedDir]
  split
  · rename_i entries hfind
    exact absurd ⟨entries, hfind⟩ h
  · rfl

theorem under_src_of_not_hasSrc (h : ¬ HasSrc d) : d.under (fileName "src") = [] := by
  rw [PackageDir.under]
  split
  · rename_i entries hfind
    exact absurd ⟨entries, hfind⟩ h
  · rfl

/-- Without `src` the compiler sees `stdlib`, and more. -/
theorem mem_exposedFiles_iff (h : ¬ HasSrc d) (hstdlib : IsDirOrAbsent d (fileName "stdlib")) :
    f ∈ exposedFiles d ↔
      (∃ g ∈ d.under (fileName "stdlib"), f = (fileName "stdlib" :: g.1, g.2)) ∨
        f ∈ unhashedFiles d := by
  rw [exposedFiles_of_not_hasSrc h]
  refine (DirEntries.mem_kryFiles_iff (fileName "stdlib")).trans (or_congr_left ?_)
  rw [PackageDir.under]
  constructor
  · rintro ⟨node, hfind, hf⟩
    cases node with
    | file content => exact absurd hfind (hstdlib content)
    | dir entries =>
      rw [Node.kryFiles, DirEntries.kryFiles_eq_map] at hf
      obtain ⟨g, hg, rfl⟩ := List.mem_map.mp hf
      rw [hfind]
      exact ⟨g, hg, rfl⟩
  · rintro ⟨g, hg, rfl⟩
    split at hg
    · rename_i entries hfind
      refine ⟨_, hfind, ?_⟩
      rw [Node.kryFiles, DirEntries.kryFiles_eq_map]
      exact List.mem_map.mpr ⟨g, hg, rfl⟩
    · cases hg

theorem head?_of_mem_unhashedFiles (h : f ∈ unhashedFiles d) :
    f.1.head? ≠ some (fileName "stdlib") := by
  obtain ⟨name, hname, hhead⟩ := DirEntries.head?_of_mem_kryFiles h
  intro heq
  obtain rfl : name = fileName "stdlib" := Option.some.inj (hhead.symm.trans heq)
  exact DirEntries.not_mem_names_without d.nodup hname

/-- The compiler sees nothing that is not hashed, or the same in both packages: both have a `src`, or
neither has one and they are alike outside `stdlib`, or one has none and nothing to show. -/
def SameUnhashed (d d' : PackageDir) : Prop :=
  (HasSrc d ∧ HasSrc d') ∨ (¬ HasSrc d ∧ ¬ HasSrc d' ∧ unhashedFiles d = unhashedFiles d') ∨
    (HasSrc d ∧ ¬ HasSrc d' ∧ d'.entries.kryFiles [] = []) ∨
    (¬ HasSrc d ∧ HasSrc d' ∧ d.entries.kryFiles [] = [])

section Pair

variable {d d' : PackageDir} {files files' : List (List Char × Bytes)}

section

variable (hd : Hashed d files) (hd' : Hashed d' files') (hp : d.Plain) (hp' : d'.Plain)
  (heq : files.map toBytes = files'.map toBytes) (g : FoundFile)

include hd hd' hp hp' heq g

theorem under_src_congr : g ∈ d.under (fileName "src") ↔ g ∈ d'.under (fileName "src") := by
  constructor
  · intro hg
    have hne := PackageDir.ne_nil_of_mem_under hg
    rwa [mem_under_src_iff hd' hp' hne, ← heq, ← mem_under_src_iff hd hp hne]
  · intro hg
    have hne := PackageDir.ne_nil_of_mem_under hg
    rwa [mem_under_src_iff hd hp hne, heq, ← mem_under_src_iff hd' hp' hne]

theorem under_stdlib_congr :
    g ∈ d.under (fileName "stdlib") ↔ g ∈ d'.under (fileName "stdlib") := by
  constructor
  · intro hg
    have hne := PackageDir.ne_nil_of_mem_under hg
    rwa [mem_under_stdlib_iff hd' hp' hne, ← heq, ← mem_under_stdlib_iff hd hp hne]
  · intro hg
    have hne := PackageDir.ne_nil_of_mem_under hg
    rwa [mem_under_stdlib_iff hd hp hne, heq, ← mem_under_stdlib_iff hd' hp' hne]

end

/-- If one package has a `src` and the other has not, no file of it is hashed. -/
theorem exposedFiles_eq_iff_of_hasSrc (hsrc : HasSrc d) (hsrc' : ¬ HasSrc d')
    (hunder : ∀ g, g ∈ d.under (fileName "src") ↔ g ∈ d'.under (fileName "src")) :
    exposedFiles d = exposedFiles d' ↔ d'.entries.kryFiles [] = [] := by
  have hempty : exposedFiles d = ∅ := by
    rw [exposedFiles_of_hasSrc hsrc]
    refine Set.eq_empty_of_forall_notMem fun g hg => ?_
    have hg' := (hunder g).mp hg
    rw [under_src_of_not_hasSrc hsrc'] at hg'
    cases hg'
  rw [hempty, exposedFiles_of_not_hasSrc hsrc', eq_comm, Set.eq_empty_iff_forall_notMem]
  exact List.eq_nil_iff_forall_not_mem.symm

/-- Without a `src` on either side, what is hashed of what is seen agrees. -/
theorem exposedFiles_eq_iff_of_not_hasSrc (hsrc : ¬ HasSrc d) (hsrc' : ¬ HasSrc d')
    (hstdlib : IsDirOrAbsent d (fileName "stdlib")) (hstdlib' : IsDirOrAbsent d' (fileName "stdlib"))
    (hunder : ∀ g, g ∈ d.under (fileName "stdlib") ↔ g ∈ d'.under (fileName "stdlib")) :
    exposedFiles d = exposedFiles d' ↔ unhashedFiles d = unhashedFiles d' := by
  have hhashed : ∀ f : FoundFile,
      (∃ g ∈ d.under (fileName "stdlib"), f = (fileName "stdlib" :: g.1, g.2)) ↔
        ∃ g ∈ d'.under (fileName "stdlib"), f = (fileName "stdlib" :: g.1, g.2) :=
    fun f => exists_congr fun g => and_congr_left fun _ => hunder g
  rw [Set.ext_iff, Set.ext_iff]
  refine forall_congr' fun f => ?_
  rw [mem_exposedFiles_iff hsrc hstdlib, mem_exposedFiles_iff hsrc' hstdlib', ← hhashed f]
  constructor
  · intro h
    constructor
    · intro hf
      rcases h.mp (.inr hf) with ⟨g, -, rfl⟩ | hf'
      · exact absurd rfl (head?_of_mem_unhashedFiles hf)
      · exact hf'
    · intro hf
      rcases h.mpr (.inr hf) with ⟨g, -, rfl⟩ | hf'
      · exact absurd rfl (head?_of_mem_unhashedFiles hf)
      · exact hf'
  · exact fun h => or_congr_right h

end Pair

/-- **When two packages with one checksum show the same files to the compiler.** -/
theorem checksum_covers_iff (sha256Hex : Bytes → String) (hinj : Function.Injective sha256Hex)
    (d d' : PackageDir) (hp : d.Plain) (hp' : d'.Plain) (c : String)
    (h : contentChecksum sha256Hex d = .ok c) (h' : contentChecksum sha256Hex d' = .ok c) :
    exposedFiles d = exposedFiles d' ↔ SameUnhashed d d' := by
  obtain ⟨files, files', hd, hd', heq⟩ :=
    hashed_eq_of_contentChecksum_eq hinj h h' hp.fits hp'.fits
  have hunder := under_src_congr hd hd' hp hp' heq
  rw [SameUnhashed]
  by_cases hsrc : HasSrc d
  · by_cases hsrc' : HasSrc d'
    · have hsame : exposedFiles d = exposedFiles d' := by
        rw [exposedFiles_of_hasSrc hsrc, exposedFiles_of_hasSrc hsrc']
        exact Set.ext hunder
      simp [hsrc, hsrc', hsame]
    · simp [hsrc, hsrc', exposedFiles_eq_iff_of_hasSrc hsrc hsrc' hunder]
  · by_cases hsrc' : HasSrc d'
    · rw [eq_comm]
      simp [hsrc, hsrc', exposedFiles_eq_iff_of_hasSrc hsrc' hsrc fun g => (hunder g).symm]
    · simp [hsrc, hsrc', exposedFiles_eq_iff_of_not_hasSrc hsrc hsrc' hd.stdlib hd'.stdlib
        (under_stdlib_congr hd hd' hp hp' heq)]

/-! ## Examples of packages -/

/-- A hash that keeps everything. -/
def verbatim (bytes : Bytes) : String := String.ofList (bytes.map fun b => Char.ofNat b.toNat)

theorem verbatim_injective : Function.Injective verbatim := by
  have hread : ∀ n < 256, (Char.ofNat n).toNat = n := by decide +kernel
  have hchar : Function.Injective fun b : UInt8 => Char.ofNat b.toNat := by
    intro b b' h
    have htoNat := congrArg Char.toNat h
    rw [hread _ b.toNat_lt, hread _ b'.toNat_lt] at htoNat
    exact UInt8.toNat_inj.mp htoNat
  intro l l' h
  exact List.map_injective_iff.mpr hchar (String.ofList_injective h)

/-- A package with nothing but a manifest and a file next to it. -/
def flatPackage (code : Bytes) : PackageDir where
  entries := .cons (fileName "kryos.toml") (.file []) (.cons (fileName "lib.kry") (.file code) .nil)
  nodup := by
    show [fileName "kryos.toml", fileName "lib.kry"].Nodup
    decide

/-- A package with one directory. -/
def srcPackage (entries : DirEntries) : PackageDir where
  entries := .cons (fileName "src") (.dir entries) .nil
  nodup := List.nodup_cons.mpr ⟨List.not_mem_nil, List.nodup_nil⟩

/-- `src/a/b.kry` -/
def nestedPackage : PackageDir :=
  srcPackage (.cons (fileName "a") (.dir (.cons (fileName "b.kry") (.file [1]) .nil)) .nil)

/-- `src/a\b.kry` -/
def backslashPackage : PackageDir :=
  srcPackage (.cons (fileName "a\\b.kry") (.file [1]) .nil)

/-- `src/main.kry`, and a file that the compiler does not see. -/
def packageWithNotes (notes : Bytes) : PackageDir where
  entries := .cons (fileName "src") (.dir (.cons (fileName "main.kry") (.file [1]) .nil))
    (.cons (fileName "notes.kry") (.file notes) .nil)
  nodup := by
    show [fileName "src", fileName "notes.kry"].Nodup
    decide

theorem plain_packageWithNotes {notes : Bytes}
    (hsrc : (packageWithNotes notes).under (fileName "src") = [([fileName "main.kry"], [1])])
    (hstdlib : (packageWithNotes notes).under (fileName "stdlib") = [])
    (h : hashedFiles (packageWithNotes notes) = .ok [("src/main.kry".toList, [1])]) :
    (packageWithNotes notes).Plain where
  src := by
    intro f hf
    rw [hsrc] at hf
    rw [List.mem_singleton.mp hf]
    exact ⟨by decide, by decide⟩
  stdlib := by
    intro f hf
    rw [hstdlib] at hf
    cases hf
  fits := by
    intro files hfiles f hf
    cases h.symm.trans hfiles
    rw [List.mem_singleton.mp hf]
    exact ⟨by decide, by decide⟩

theorem checksum_covers_iff_notes :
    contentChecksum verbatim (packageWithNotes [1]) =
        contentChecksum verbatim (packageWithNotes [2]) ∧
      exposedFiles (packageWithNotes [1]) = exposedFiles (packageWithNotes [2]) := by
  have h : contentChecksum verbatim (packageWithNotes [1]) =
      .ok ("sha256:" ++ verbatim (frame ("src/main.kry".toList, [1]))) := by decide +kernel
  have h' : contentChecksum verbatim (packageWithNotes [2]) =
      .ok ("sha256:" ++ verbatim (frame ("src/main.kry".toList, [1]))) := by decide +kernel
  have hplain := @plain_packageWithNotes [1] (by decide +kernel) (by decide +kernel)
    (by decide +kernel)
  have hplain' := @plain_packageWithNotes [2] (by decide +kernel) (by decide +kernel)
    (by decide +kernel)
  refine ⟨h.trans h'.symm, ?_⟩
  exact (checksum_covers_iff verbatim verbatim_injective _ _ hplain hplain' _ h h').mpr
    (.inl ⟨⟨_, rfl⟩, ⟨_, rfl⟩⟩)

/-- Without `src` the code is not hashed; and a backslash is taken for a slash. -/
theorem checksum_does_not_cover :
    (contentChecksum verbatim (flatPackage [1]) = contentChecksum verbatim (flatPackage [2]) ∧
      (contentChecksum verbatim (flatPackage [1])).toBool = true ∧
      exposedFiles (flatPackage [1]) ≠ exposedFiles (flatPackage [2])) ∧
    contentChecksum verbatim nestedPackage = contentChecksum verbatim backslashPackage ∧
      (contentChecksum verbatim nestedPackage).toBool = true ∧
      exposedFiles nestedPackage ≠ exposedFiles backslashPackage := by
  refine ⟨⟨by decide +kernel, by decide +kernel, fun h => ?_⟩, by decide +kernel,
    by decide +kernel, fun h => ?_⟩
  · have hmem : (([fileName "lib.kry"], [1]) : FoundFile) ∈ exposedFiles (flatPackage [1]) := by
      show _ ∈ (exposedDir (flatPackage [1])).kryFiles []
      decide +kernel
    rw [h] at hmem
    exact absurd hmem (by show ¬ _ ∈ (exposedDir (flatPackage [2])).kryFiles []; decide +kernel)
  · have hmem : (([fileName "a", fileName "b.kry"], [1]) : FoundFile) ∈ exposedFiles nestedPackage := by
      show _ ∈ (exposedDir nestedPackage).kryFiles []
      decide +kernel
    rw [h] at hmem
    exact absurd hmem (by show ¬ _ ∈ (exposedDir backslashPackage).kryFiles []; decide +kernel)

end Kryos.Package

import Kryos.Package.CachePath

/-!
# The registry index

`kryos pkg publish` prints an index entry, an object written over several lines by string
formatting. The index is read back line by line, each line on its own, by looking for the first
occurrence of a key in quotes and the quotes behind it. Nothing is escaped on the way.

An entry that is stored as it was printed is therefore never read back: the line with the version
makes an entry of its own, without checksum and dependencies. On one line it is read back as long as
no text in it has a quote or looks like a key that is searched for.

## Main results

* `lookupEntries_oneLine` — an entry on one line
* `checksum_of_mem_lookupEntries` — an entry over several lines
* `entryRoundTrips_iff` — the two together
-/

namespace Kryos.Package

/-! ## Searching -/

/-- `str::find` for a text, and what is behind the occurrence. -/
def afterFirst (pattern : List Char) : List Char → Option (List Char)
  | [] => if pattern = [] then some [] else none
  | c :: cs =>
    if pattern.isPrefixOf (c :: cs) then some ((c :: cs).drop pattern.length)
    else afterFirst pattern cs

/-- `str::find` for a character, and what is on both sides of it. -/
def cut (sep : Char) : List Char → Option (List Char × List Char)
  | [] => none
  | c :: cs => if c = sep then some ([], cs) else (cut sep cs).map fun p => (c :: p.1, p.2)

variable {l : List Char}

theorem length_snd_cut {sep : Char} {before after : List Char}
    (h : cut sep l = some (before, after)) : after.length < l.length := by
  induction l generalizing before with
  | nil => cases h
  | cons c l ih =>
    rw [cut] at h
    split at h
    · cases h
      exact Nat.lt_succ_self _
    · obtain ⟨p, hp, heq⟩ := Option.map_eq_some_iff.mp h
      cases heq
      exact Nat.lt_succ_of_lt (ih hp)

/-- `"key"` -/
def quoted (key : List Char) : List Char := '"' :: key ++ ['"']

def extractJsonString (json key : List Char) : Option (List Char) := do
  let afterKey ← afterFirst (quoted key) json
  let (_, afterValueStart) ← cut '"' afterKey
  let (value, _) ← cut '"' afterValueStart
  return value

abbrev DepTexts := AList fun _ : List Char => List Char

/-- The loop of `extract_deps_object` over `"key": "value"` pairs. -/
def readPairs (s : List Char) (result : DepTexts) : DepTexts :=
  match _h₁ : cut '"' s with
  | none => result
  | some (_, s₁) =>
    match _h₂ : cut '"' s₁ with
    | none => result
    | some (depName, s₂) =>
      match _h₃ : cut '"' s₂ with
      | none => result
      | some (_, s₃) =>
        match _h₄ : cut '"' s₃ with
        | none => result
        | some (depVer, s₄) =>
          readPairs s₄ (if depName = [] then result else result.insert depName depVer)
termination_by s.length
decreasing_by
  have h₁ := length_snd_cut _h₁
  have h₂ := length_snd_cut _h₂
  have h₃ := length_snd_cut _h₃
  have h₄ := length_snd_cut _h₄
  omega

def extractDepsObject (json key : List Char) : DepTexts :=
  match afterFirst (quoted key) json with
  | none => ∅
  | some afterKey =>
    match cut '{' afterKey with
    | none => ∅
    | some (_, fromInner) =>
      match cut '}' fromInner with
      | none => ∅
      | some (inner, _) => readPairs inner ∅

/-! ## Entries -/

/-- The JSON library, for the badge alone. -/
structure BadgeJson (Badge : Type) where
  toJson : Badge → List Char
  /-- the field `capabilities` of an object, read as a badge -/
  capabilities : List Char → Option Badge

structure RegistryEntry (Badge : Type) where
  name : String
  version : Version
  checksum : List Char
  dependencies : DepTexts
  downloadUrl : List Char
  capabilities : Option Badge

structure PublishPackage (Badge : Type) where
  name : String
  version : Version
  /-- the dependencies of the manifest, in the order in which they are met -/
  dependencies : List (String × DepSpec)
  nodup : (dependencies.map Prod.fst).Nodup
  capsBadge : Option Badge
  contentChecksum : List Char

def DepSpec.display : DepSpec → List Char
  | .remote source versionReq => source.toList ++ '@' :: versionReq.toString.toList
  | .path dir => "path:".toList ++ dir.toList

section Index

variable {Badge : Type} (json : BadgeJson Badge)

def depLine (dep : String × DepSpec) : List Char :=
  "    \"".toList ++ dep.1.toList ++ "\": \"".toList ++ dep.2.display ++ "\"".toList

def depsJson (deps : List (String × DepSpec)) : List Char :=
  if deps = [] then "\x7b\x7d".toList
  else "\x7b\n".toList ++ List.intercalate ",\n".toList (deps.map depLine) ++ "\n  \x7d".toList

def capsField : Option Badge → List Char
  | some b => ",\n  \"capabilities\": ".toList ++ json.toJson b
  | none => []

def generateIndexEntry (pkg : PublishPackage Badge) : List Char :=
  "\x7b\n  \"name\": \"".toList ++ pkg.name.toList ++
    "\",\n  \"version\": \"".toList ++ pkg.version.toString.toList ++
    "\",\n  \"dependencies\": ".toList ++ depsJson pkg.dependencies ++
    ",\n  \"checksum\": \"".toList ++ pkg.contentChecksum ++ "\"".toList ++
    capsField json pkg.capsBadge ++ "\n\x7d".toList

def releaseUrl (name : String) (version : Version) : List Char :=
  "https://github.com/NORTHTEKDevs/kryos-registry/releases/download/v".toList ++
    version.toString.toList ++ '/' :: name.toList ++ '-' :: version.toString.toList ++
    ".tar.gz".toList

def parseIndexEntry (line : List Char) (name : String) : Option (RegistryEntry Badge) := do
  let versionStr ← extractJsonString line "version".toList
  let version ← (Version.fromStr (String.ofList versionStr)).toOption
  let deps := extractDepsObject line "dependencies".toList
  return {
    name
    version
    checksum := (extractJsonString line "checksum".toList).getD []
    dependencies := if deps.entries = [] then extractDepsObject line "deps".toList else deps
    downloadUrl :=
      (extractJsonString line "download_url".toList).getD (releaseUrl name version)
    capabilities := json.capabilities line }

/-- One line of the index file. -/
def parseLine (name : String) (line : List Char) : Option (RegistryEntry Badge) :=
  match trim line with
  | [] => none
  | '#' :: _ => none
  | line => parseIndexEntry json line name

/-- The entries that `lookup` finds in an index file. A carriage return at the end of a line goes
with the blanks around it. -/
def lookupEntries (content : List Char) (name : String) : List (RegistryEntry Badge) :=
  (Version.splitAt '\n' content).filterMap (parseLine json name)

end Index

/-! ## Searching for keys -/

section Search

variable {key a p rest : List Char}

theorem cut_append {sep : Char} (h : sep ∉ a) (rest : List Char) :
    cut sep (a ++ sep :: rest) = some (a, rest) := by
  induction a with
  | nil => rw [List.nil_append, cut, if_pos rfl]
  | cons c a ih =>
    obtain ⟨hc, ha⟩ := not_or.mp (mt List.mem_cons.mpr h)
    rw [List.cons_append, cut, if_neg (Ne.symm hc), ih ha, Option.map_some]

theorem cut_of_not_mem {sep : Char} (h : sep ∉ a) : cut sep a = none := by
  induction a with
  | nil => rfl
  | cons c a ih =>
    obtain ⟨hc, ha⟩ := not_or.mp (mt List.mem_cons.mpr h)
    rw [cut, if_neg (Ne.symm hc), ih ha, Option.map_none]

/-- A search for a key is still to be done behind the text. -/
def Passes (key a : List Char) : Prop :=
  ∀ rest, afterFirst (quoted key) (a ++ '"' :: rest) = afterFirst (quoted key) ('"' :: rest)

theorem afterFirst_of_not_mem (h : '"' ∉ a) (rest : List Char) :
    afterFirst (quoted key) (a ++ rest) = afterFirst (quoted key) rest := by
  induction a with
  | nil => rfl
  | cons c a ih =>
    obtain ⟨hc, ha⟩ := not_or.mp (mt List.mem_cons.mpr h)
    have hpre : (quoted key).isPrefixOf (c :: (a ++ rest)) = false := by
      simp [quoted, List.isPrefixOf, hc]
    rw [List.cons_append, afterFirst, hpre, if_neg (by decide), ih ha]

theorem passes_of_not_mem (h : '"' ∉ a) : Passes key a :=
  fun rest => afterFirst_of_not_mem h ('"' :: rest)

theorem afterFirst_quote (hkey : '"' ∉ key) (hp : '"' ∉ p) (hne : p ≠ key) (rest : List Char) :
    afterFirst (quoted key) ('"' :: (p ++ '"' :: rest)) = afterFirst (quoted key) ('"' :: rest) := by
  have hpre : ¬ (quoted key).isPrefixOf ('"' :: (p ++ '"' :: rest)) = true := by
    rw [List.isPrefixOf_iff_prefix]
    rintro ⟨t, ht⟩
    have ht' : key ++ '"' :: t = p ++ '"' :: rest := by
      simpa [quoted] using ht
    have hcut := (cut_append hkey t).symm.trans (ht' ▸ cut_append hp rest)
    exact hne (Prod.mk.inj (Option.some.inj hcut)).1.symm
  rw [afterFirst, if_neg hpre, afterFirst_of_not_mem hp]

theorem afterFirst_key (key rest : List Char) :
    afterFirst (quoted key) (quoted key ++ rest) = some rest := by
  rw [quoted, List.cons_append, List.cons_append, afterFirst, if_pos]
  · simp
  · exact List.isPrefixOf_iff_prefix.mpr ⟨rest, by simp⟩

/-- A piece between quotes that is not the key. -/
theorem Passes.append_quote (h : Passes key a) (hkey : '"' ∉ key) (hp : '"' ∉ p) (hne : p ≠ key) :
    Passes key (a ++ '"' :: p) := by
  intro rest
  rw [List.append_assoc, List.cons_append, h, afterFirst_quote hkey hp hne]

theorem Passes.afterFirst_eq (h : Passes key a) (rest : List Char) :
    afterFirst (quoted key) (a ++ quoted key ++ rest) = some rest := by
  rw [List.append_assoc]
  exact (h (key ++ ['"'] ++ rest)).trans (afterFirst_key key rest)

/-- A text in pieces, each behind a quote. -/
def pieces (ps : List (List Char)) : List Char := ps.flatMap ('"' :: ·)

theorem Passes.append_pieces (h : Passes key a) (hkey : '"' ∉ key) {ps : List (List Char)}
    (hps : ∀ p ∈ ps, '"' ∉ p ∧ p ≠ key) : Passes key (a ++ pieces ps) := by
  induction ps generalizing a with
  | nil => simpa [pieces] using h
  | cons p ps ih =>
    obtain ⟨⟨hp, hne⟩, hps⟩ := List.forall_mem_cons.mp hps
    have hnext := ih (h.append_quote hkey hp hne) hps
    rwa [List.append_assoc, List.cons_append] at hnext

theorem pieces_append (ps qs : List (List Char)) : pieces (ps ++ qs) = pieces ps ++ pieces qs :=
  List.flatMap_append

/-- What is behind the first piece that is the key. -/
theorem afterFirst_pieces (ha : '"' ∉ a) (hkey : '"' ∉ key) {ps : List (List Char)}
    (hps : ∀ p ∈ ps, '"' ∉ p ∧ p ≠ key) (p : List Char) (qs : List (List Char)) :
    afterFirst (quoted key) (a ++ pieces (ps ++ key :: p :: qs)) = some (p ++ pieces qs) := by
  have heq := ((passes_of_not_mem ha).append_pieces hkey hps).afterFirst_eq (p ++ pieces qs)
  rw [pieces_append, ← heq]
  simp [pieces, quoted]

/-- A value is read behind the first occurrence of its key. -/
theorem extractJsonString_pieces (ha : '"' ∉ a) (hkey : '"' ∉ key) {ps : List (List Char)}
    (hps : ∀ p ∈ ps, '"' ∉ p ∧ p ≠ key) {value : List Char} (hvalue : '"' ∉ value) (p : List Char)
    (qs : List (List Char)) :
    extractJsonString (a ++ pieces (ps ++ key :: ": ".toList :: value :: p :: qs)) key =
      some value := by
  have hopen : cut '"' (": ".toList ++ pieces (value :: p :: qs)) =
      some (": ".toList, value ++ pieces (p :: qs)) := cut_append (by decide) _
  have hclose : cut '"' (value ++ pieces (p :: qs)) = some (value, p ++ pieces qs) :=
    cut_append hvalue _
  rw [extractJsonString, afterFirst_pieces ha hkey hps]
  simp only [Option.bind_eq_bind, Option.bind_some, hopen, hclose]
  rfl

end Search

/-! ## Reading pairs -/

variable {deps : List (String × DepSpec)}

section Pairs

theorem readPairs_of_not_mem {s : List Char} (h : '"' ∉ s) (result : DepTexts) :
    readPairs s result = result := by
  rw [readPairs]
  split
  · rfl
  · rename_i heq
    rw [cut_of_not_mem h] at heq
    cases heq

/-- One turn of the loop. -/
theorem readPairs_step {p k q v : List Char} (hp : '"' ∉ p) (hk : '"' ∉ k) (hq : '"' ∉ q)
    (hv : '"' ∉ v) (rest : List Char) (result : DepTexts) :
    readPairs (p ++ pieces [k, q, v, rest]) result =
      readPairs rest (if k = [] then result else result.insert k v) := by
  have h₁ : cut '"' (p ++ pieces [k, q, v, rest]) = some (p, k ++ pieces [q, v, rest]) :=
    cut_append hp _
  have h₂ : cut '"' (k ++ pieces [q, v, rest]) = some (k, q ++ pieces [v, rest]) := cut_append hk _
  have h₃ : cut '"' (q ++ pieces [v, rest]) = some (q, v ++ pieces [rest]) := cut_append hq _
  have h₄ : cut '"' (v ++ pieces [rest]) = some (v, rest) := by
    have heq := cut_append hv rest
    rwa [show v ++ pieces [rest] = v ++ '"' :: rest by simp [pieces]]
  rw [readPairs]
  split
  · rename_i heq
    rw [h₁] at heq
    cases heq
  · rename_i heq
    rw [h₁] at heq
    cases heq
    split
    · rename_i heq
      rw [h₂] at heq
      cases heq
    · rename_i heq
      rw [h₂] at heq
      cases heq
      split
      · rename_i heq
        rw [h₃] at heq
        cases heq
      · rename_i heq
        rw [h₃] at heq
        cases heq
        split
        · rename_i heq
          rw [h₄] at heq
          cases heq
        · rename_i heq
          rw [h₄] at heq
          cases heq
          rfl

/-- The dependencies as pieces, with a text behind them. -/
def depPieces (tail : List Char) : List (String × DepSpec) → List (List Char)
  | [] => []
  | [dep] => [dep.1.toList, ": ".toList, dep.2.display, tail]
  | dep :: deps =>
    dep.1.toList :: ": ".toList :: dep.2.display :: ",     ".toList :: depPieces tail deps

theorem depLine_eq (dep : String × DepSpec) :
    depLine dep = "    ".toList ++ pieces [dep.1.toList, ": ".toList, dep.2.display] ++ ['"'] := by
  show "    \"".toList ++ dep.1.toList ++ "\": \"".toList ++ dep.2.display ++ "\"".toList = _
  simp [pieces]

theorem intercalate_depLine (tail : List Char) (h : deps ≠ []) :
    List.intercalate ", ".toList (deps.map depLine) ++ tail =
      "    ".toList ++ pieces (depPieces tail deps) := by
  induction deps with
  | nil => exact absurd rfl h
  | cons dep deps ih =>
    cases deps with
    | nil =>
      rw [List.map_singleton, List.intercalate_singleton, depLine_eq, depPieces]
      simp [pieces]
    | cons dep' deps =>
      have hrest := ih (List.cons_ne_nil dep' deps)
      rw [List.map_cons] at hrest
      rw [List.map_cons, List.map_cons, List.intercalate_cons_cons, List.append_assoc,
        List.append_assoc, hrest, depLine_eq]
      show _ = _ ++ pieces (dep.1.toList :: ": ".toList :: dep.2.display :: ",     ".toList ::
        depPieces tail (dep' :: deps))
      generalize depPieces tail (dep' :: deps) = rest
      simp [pieces]

/-- Texts that survive: no quotes, no closing brace, and no key that is searched for. -/
structure CleanDep (dep : String × DepSpec) : Prop where
  name_quote : '"' ∉ dep.1.toList
  name_brace : '}' ∉ dep.1.toList
  name_newline : '\n' ∉ dep.1.toList
  name_ne_nil : dep.1.toList ≠ []
  name_ne_checksum : dep.1.toList ≠ "checksum".toList
  spec_quote : '"' ∉ dep.2.display
  spec_brace : '}' ∉ dep.2.display
  spec_newline : '\n' ∉ dep.2.display

def depTexts (deps : List (String × DepSpec)) (result : DepTexts) : DepTexts :=
  deps.foldl (fun m dep => m.insert dep.1.toList dep.2.display) result

theorem readPairs_depPieces {p tail : List Char} (hp : '"' ∉ p) (htail : '"' ∉ tail)
    (hne : deps ≠ []) (h : ∀ dep ∈ deps, CleanDep dep) (result : DepTexts) :
    readPairs (p ++ pieces (depPieces tail deps)) result = depTexts deps result := by
  induction deps generalizing p result with
  | nil => exact absurd rfl hne
  | cons dep deps ih =>
    obtain ⟨hdep, hdeps⟩ := List.forall_mem_cons.mp h
    cases deps with
    | nil =>
      rw [depPieces, readPairs_step hp hdep.name_quote (by decide) hdep.spec_quote,
        if_neg hdep.name_ne_nil, readPairs_of_not_mem htail]
      rfl
    | cons dep' deps =>
      have hstep : pieces (depPieces tail (dep :: dep' :: deps)) =
          pieces [dep.1.toList, ": ".toList, dep.2.display,
            ",     ".toList ++ pieces (depPieces tail (dep' :: deps))] := by
        simp [depPieces, pieces]
      rw [hstep, readPairs_step hp hdep.name_quote (by decide) hdep.spec_quote,
        if_neg hdep.name_ne_nil, ih (by decide) (by simp) hdeps]
      rfl

end Pairs

/-! ## An entry on one line -/

/-- Newlines become blanks. -/
def oneLine (l : List Char) : List Char := l.map fun c => if c = '\n' then ' ' else c

theorem oneLine_append (l l' : List Char) : oneLine (l ++ l') = oneLine l ++ oneLine l' :=
  List.map_append

theorem oneLine_of_not_mem (h : '\n' ∉ l) : oneLine l = l := by
  refine (List.map_congr_left fun c hc => if_neg ?_).trans (List.map_id l)
  rintro rfl
  exact h hc

theorem newline_not_mem_oneLine (l : List Char) : '\n' ∉ oneLine l := by
  intro h
  obtain ⟨c, -, hc⟩ := List.mem_map.mp h
  split at hc
  · exact absurd hc (by decide)
  · rename_i hne
    exact hne hc

theorem not_mem_oneLine {c : Char} (h : c ∉ l) (hc : c ≠ ' ') : c ∉ oneLine l := by
  intro hmem
  obtain ⟨d, hd, heq⟩ := List.mem_map.mp hmem
  split at heq
  · exact hc heq.symm
  · exact h (heq ▸ hd)

/-- A word is only made from itself. -/
theorem eq_of_oneLine_eq {word : List Char} (h : oneLine l = word) (hword : ' ' ∉ word) :
    l = word := by
  have hl : '\n' ∉ l := by
    intro hmem
    refine hword (h ▸ ?_)
    exact List.mem_map.mpr ⟨'\n', hmem, rfl⟩
  rw [← h, oneLine_of_not_mem hl]

theorem oneLine_intercalate (sep : List Char) {ls : List (List Char)} (h : ∀ l ∈ ls, '\n' ∉ l) :
    oneLine (List.intercalate sep ls) = List.intercalate (oneLine sep) ls := by
  induction ls with
  | nil => rfl
  | cons l ls ih =>
    obtain ⟨hl, hls⟩ := List.forall_mem_cons.mp h
    cases ls with
    | nil => rw [List.intercalate_singleton, List.intercalate_singleton, oneLine_of_not_mem hl]
    | cons l' ls =>
      rw [List.intercalate_cons_cons, List.intercalate_cons_cons, oneLine_append, oneLine_append,
        oneLine_of_not_mem hl, ih hls]

section OneLine

variable {Badge : Type} {json : BadgeJson Badge}

/-- What an entry must not contain in order to be read back. -/
structure Clean (json : BadgeJson Badge) (pkg : PublishPackage Badge) : Prop where
  version : pkg.version.Valid
  version_quote : '"' ∉ pkg.version.toString.toList
  version_newline : '\n' ∉ pkg.version.toString.toList
  name_quote : '"' ∉ pkg.name.toList
  name_ne : pkg.name ∉ ["version", "dependencies", "checksum"]
  deps : ∀ dep ∈ pkg.dependencies, CleanDep dep
  checksum : ∃ hex, pkg.contentChecksum = "sha256:".toList ++ hex ∧ '"' ∉ hex ∧ '\n' ∉ hex
  /-- where there are no dependencies, the old key `deps` is searched for -/
  fallback : pkg.dependencies = [] →
    (pkg.name = "deps" → '{' ∉ pkg.version.toString.toList) ∧
      ∀ b, pkg.capsBadge = some b →
        afterFirst (quoted "deps".toList) (oneLine (json.toJson b) ++ " \x7d".toList) = none

/-- The pieces in front of the dependencies. -/
def frontPieces (pkg : PublishPackage Badge) : List (List Char) :=
  ["name".toList, ": ".toList, oneLine pkg.name.toList, ",   ".toList, "version".toList,
    ": ".toList, pkg.version.toString.toList, ",   ".toList]

def depsPieces (deps : List (String × DepSpec)) : List (List Char) :=
  if deps = [] then [": \x7b\x7d,   ".toList] else ": \x7b     ".toList :: depPieces "   \x7d,   ".toList deps

/-- What is behind the checksum. -/
def tailPiece (json : BadgeJson Badge) (badge : Option Badge) : List Char :=
  oneLine (capsField json badge) ++ " \x7d".toList

theorem oneLine_depsJson (h : ∀ dep ∈ deps, CleanDep dep) :
    ": ".toList ++ oneLine (depsJson deps) ++ ",   ".toList =
      (depsPieces deps).head?.getD [] ++ pieces (depsPieces deps).tail := by
  rw [depsPieces]
  by_cases hnil : deps = []
  · rw [if_pos hnil, hnil]
    rfl
  · rw [if_neg hnil]
    have hlines : ∀ l ∈ deps.map depLine, '\n' ∉ l := by
      intro l hl
      obtain ⟨dep, hdep, rfl⟩ := List.mem_map.mp hl
      rw [depLine_eq]
      simp [pieces, (h dep hdep).name_newline, (h dep hdep).spec_newline]
    have hjson : depsJson deps =
        "\x7b\n".toList ++ List.intercalate ",\n".toList (deps.map depLine) ++ "\n  \x7d".toList :=
      if_neg hnil
    have htail := intercalate_depLine "   \x7d,   ".toList hnil
    rw [hjson, oneLine_append, oneLine_append, oneLine_intercalate _ hlines]
    show ": ".toList ++ ("\x7b ".toList ++ List.intercalate ", ".toList (deps.map depLine) ++
      "   \x7d".toList) ++ ",   ".toList = ": \x7b     ".toList ++ pieces _
    have hsplit : ": ".toList ++ ("\x7b ".toList ++ List.intercalate ", ".toList (deps.map depLine) ++
        "   \x7d".toList) ++ ",   ".toList =
        ": \x7b ".toList ++ (List.intercalate ", ".toList (deps.map depLine) ++ "   \x7d,   ".toList) := by
      simp
    rw [hsplit, htail]
    simp

/-- The entry, in pieces. -/
theorem oneLine_generateIndexEntry {pkg : PublishPackage Badge} (h : Clean json pkg) :
    oneLine (generateIndexEntry json pkg) = "\x7b   ".toList ++ pieces (frontPieces pkg ++
      "dependencies".toList :: depsPieces pkg.dependencies ++
      ["checksum".toList, ": ".toList, pkg.contentChecksum, tailPiece json pkg.capsBadge]) := by
  obtain ⟨hex, hchecksum, -, hhex⟩ := h.checksum
  have hC : '\n' ∉ pkg.contentChecksum := by
    rw [hchecksum, List.mem_append, not_or]
    exact ⟨by decide, hhex⟩
  have hfront : oneLine "\x7b\n  \"name\": \"".toList = "\x7b   \"name\": \"".toList := by
    decide
  have hversion : oneLine "\",\n  \"version\": \"".toList = "\",   \"version\": \"".toList := by
    decide
  have hdeps : oneLine "\",\n  \"dependencies\": ".toList = "\",   \"dependencies\": ".toList := by
    decide
  have hsum : oneLine ",\n  \"checksum\": \"".toList = ",   \"checksum\": \"".toList := by
    decide
  have hquote : oneLine "\"".toList = "\"".toList := by decide
  have hend : oneLine "\n\x7d".toList = " \x7d".toList := by decide
  have hline : oneLine (generateIndexEntry json pkg) =
      "\x7b   \"name\": \"".toList ++ oneLine pkg.name.toList ++ "\",   \"version\": \"".toList ++
        pkg.version.toString.toList ++ "\",   \"dependencies\": ".toList ++
        oneLine (depsJson pkg.dependencies) ++ ",   \"checksum\": \"".toList ++
        pkg.contentChecksum ++ "\"".toList ++ oneLine (capsField json pkg.capsBadge) ++
        " \x7d".toList := by
    show oneLine ("\x7b\n  \"name\": \"".toList ++ pkg.name.toList ++
      "\",\n  \"version\": \"".toList ++ pkg.version.toString.toList ++
      "\",\n  \"dependencies\": ".toList ++ depsJson pkg.dependencies ++
      ",\n  \"checksum\": \"".toList ++ pkg.contentChecksum ++ "\"".toList ++
      capsField json pkg.capsBadge ++ "\n\x7d".toList) = _
    simp only [oneLine_append, oneLine_of_not_mem h.version_newline, oneLine_of_not_mem hC, hfront,
      hversion, hdeps, hsum, hquote, hend]
  have hpieces := oneLine_depsJson h.deps
  obtain ⟨p, ps, hps⟩ : ∃ p ps, depsPieces pkg.dependencies = p :: ps := by
    rw [depsPieces]
    split
    · exact ⟨_, _, rfl⟩
    · exact ⟨_, _, rfl⟩
  rw [hps] at hpieces ⊢
  rw [hline]
  generalize oneLine (depsJson pkg.dependencies) = deps at hpieces ⊢
  have hregroup : ": ".toList ++ (deps ++ ",   ".toList) = p ++ pieces ps := by
    rw [← List.append_assoc]
    exact hpieces
  calc
    _ = "\x7b   ".toList ++ (pieces (frontPieces pkg) ++ ('"' :: "dependencies".toList ++
          '"' :: ((": ".toList ++ (deps ++ ",   ".toList)) ++ pieces ["checksum".toList, ": ".toList,
            pkg.contentChecksum, tailPiece json pkg.capsBadge]))) := by
      simp [pieces, frontPieces, tailPiece]
    _ = _ := by
      rw [hregroup]
      simp [pieces]

theorem mem_depPieces {tail p : List Char} (h : p ∈ depPieces tail deps) :
    (∃ dep ∈ deps, p = dep.1.toList ∨ p = dep.2.display) ∨ p = ": ".toList ∨ p = ",     ".toList ∨
      p = tail := by
  induction deps with
  | nil => cases h
  | cons dep deps ih =>
    cases deps with
    | nil =>
      simp only [depPieces, List.mem_cons, List.not_mem_nil, or_false] at h
      rcases h with rfl | rfl | rfl | rfl
      · exact .inl ⟨dep, List.mem_cons_self, .inl rfl⟩
      · exact .inr (.inl rfl)
      · exact .inl ⟨dep, List.mem_cons_self, .inr rfl⟩
      · exact .inr (.inr (.inr rfl))
    | cons dep' deps =>
      have hcons : depPieces tail (dep :: dep' :: deps) = dep.1.toList :: ": ".toList ::
        dep.2.display :: ",     ".toList :: depPieces tail (dep' :: deps) := rfl
      rw [hcons, List.mem_cons, List.mem_cons, List.mem_cons, List.mem_cons] at h
      rcases h with rfl | rfl | rfl | rfl | h
      · exact .inl ⟨dep, List.mem_cons_self, .inl rfl⟩
      · exact .inr (.inl rfl)
      · exact .inl ⟨dep, List.mem_cons_self, .inr rfl⟩
      · exact .inr (.inr (.inl rfl))
      · rcases ih h with ⟨d, hd, hp⟩ | hp
        · exact .inl ⟨d, List.mem_cons_of_mem dep hd, hp⟩
        · exact .inr hp

/-- A specification is not the word `checksum`: it has an `@` in it or starts with `path:`. -/
theorem display_ne_checksum (spec : DepSpec) : spec.display ≠ "checksum".toList := by
  cases spec with
  | remote source versionReq =>
    intro h
    have hat : '@' ∈ "checksum".toList := by
      rw [← h]
      exact List.mem_append_right _ List.mem_cons_self
    exact absurd hat (by decide)
  | path dir =>
    intro h
    have hhead := congrArg List.head? h
    exact absurd hhead (by simp [DepSpec.display])

theorem forall_mem_depsPieces (h : ∀ dep ∈ deps, CleanDep dep) :
    ∀ p ∈ depsPieces deps, '"' ∉ p ∧ p ≠ "checksum".toList := by
  intro p hp
  rw [depsPieces] at hp
  split at hp
  · rw [List.mem_singleton.mp hp]
    exact ⟨by decide, by decide⟩
  · rcases List.mem_cons.mp hp with rfl | hp
    · exact ⟨by decide, by decide⟩
    · rcases mem_depPieces hp with ⟨dep, hdep, rfl | rfl⟩ | rfl | rfl | rfl
      · exact ⟨(h dep hdep).name_quote, (h dep hdep).name_ne_checksum⟩
      · exact ⟨(h dep hdep).spec_quote, display_ne_checksum dep.2⟩
      · exact ⟨by decide, by decide⟩
      · exact ⟨by decide, by decide⟩
      · exact ⟨by decide, by decide⟩

/-- A version has a point in it. -/
theorem version_ne (v : Version) {word : List Char} (h : '.' ∉ word) : v.toString.toList ≠ word := by
  rintro rfl
  refine h ?_
  rw [Version.toList_toString, Version.core]
  simp

/-- The pieces in front of the dependencies are no key but `name` and `version`. -/
theorem forall_mem_frontPieces {pkg : PublishPackage Badge} (h : Clean json pkg) {word : List Char}
    (hword : word ≠ "name".toList ∧ word ≠ "version".toList ∧ word ≠ ": ".toList ∧
      word ≠ ",   ".toList) (hpoint : '.' ∉ word) (hname : oneLine pkg.name.toList ≠ word) :
    ∀ p ∈ frontPieces pkg, '"' ∉ p ∧ p ≠ word := by
  have hquote : '"' ∉ oneLine pkg.name.toList := not_mem_oneLine h.name_quote (by decide)
  obtain ⟨h₁, h₂, h₃, h₄⟩ := hword
  simp only [frontPieces, List.forall_mem_cons]
  exact ⟨⟨by decide, h₁.symm⟩, ⟨by decide, h₃.symm⟩, ⟨hquote, hname⟩, ⟨by decide, h₄.symm⟩,
    ⟨by decide, h₂.symm⟩, ⟨by decide, h₃.symm⟩, ⟨h.version_quote, version_ne _ hpoint⟩,
    ⟨by decide, h₄.symm⟩, nofun⟩

theorem oneLine_name_ne {pkg : PublishPackage Badge} {word : String} (h : pkg.name ≠ word)
    (hword : ' ' ∉ word.toList) : oneLine pkg.name.toList ≠ word.toList :=
  fun heq => h (String.toList_inj.mp (eq_of_oneLine_eq heq hword))

theorem extract_version {pkg : PublishPackage Badge} (h : Clean json pkg) :
    extractJsonString (oneLine (generateIndexEntry json pkg)) "version".toList =
      some pkg.version.toString.toList := by
  have hname : oneLine pkg.name.toList ≠ "version".toList :=
    oneLine_name_ne (fun heq => h.name_ne (by simp [heq])) (by decide)
  have hquote : '"' ∉ oneLine pkg.name.toList := not_mem_oneLine h.name_quote (by decide)
  have hfront : ∀ p ∈ ["name".toList, ": ".toList, oneLine pkg.name.toList, ",   ".toList],
      '"' ∉ p ∧ p ≠ "version".toList := by
    simp only [List.forall_mem_cons]
    exact ⟨⟨by decide, by decide⟩, ⟨by decide, by decide⟩, ⟨hquote, hname⟩,
      ⟨by decide, by decide⟩, nofun⟩
  rw [oneLine_generateIndexEntry h]
  exact extractJsonString_pieces (by decide) (by decide) hfront h.version_quote _ _

theorem checksum_quote {pkg : PublishPackage Badge} (h : Clean json pkg) :
    '"' ∉ pkg.contentChecksum := by
  obtain ⟨hex, heq, hhex, -⟩ := h.checksum
  rw [heq, List.mem_append, not_or]
  exact ⟨by decide, hhex⟩

theorem extract_checksum {pkg : PublishPackage Badge} (h : Clean json pkg) :
    extractJsonString (oneLine (generateIndexEntry json pkg)) "checksum".toList =
      some pkg.contentChecksum := by
  have hname : oneLine pkg.name.toList ≠ "checksum".toList :=
    oneLine_name_ne (fun heq => h.name_ne (by simp [heq])) (by decide)
  rw [oneLine_generateIndexEntry h]
  refine extractJsonString_pieces (by decide) (by decide) (fun p hp => ?_) (checksum_quote h) _ _
  rcases List.mem_append.mp hp with hp | hp
  · exact forall_mem_frontPieces h (by decide) (by decide) hname p hp
  · rcases List.mem_cons.mp hp with rfl | hp
    · exact ⟨by decide, by decide⟩
    · exact forall_mem_depsPieces h.deps p hp

theorem brace_not_mem_depPieces (h : ∀ dep ∈ deps, CleanDep dep) :
    '}' ∉ "     ".toList ++ pieces (depPieces "   ".toList deps) := by
  rw [List.mem_append, not_or]
  refine ⟨by decide, fun hmem => ?_⟩
  obtain ⟨p, hp, hbrace⟩ := List.mem_flatMap.mp hmem
  rcases List.mem_cons.mp hbrace with hbrace | hbrace
  · exact absurd hbrace (by decide)
  · rcases mem_depPieces hp with ⟨dep, hdep, rfl | rfl⟩ | rfl | rfl | rfl
    · exact (h dep hdep).name_brace hbrace
    · exact (h dep hdep).spec_brace hbrace
    · exact absurd hbrace (by decide)
    · exact absurd hbrace (by decide)
    · exact absurd hbrace (by decide)

theorem pieces_depPieces_append (t x : List Char) (h : deps ≠ []) :
    pieces (depPieces (t ++ x) deps) = pieces (depPieces t deps) ++ x := by
  have h₁ := intercalate_depLine (t ++ x) h
  have h₂ := intercalate_depLine t h
  rw [← List.append_assoc, h₂, List.append_assoc] at h₁
  exact (List.append_cancel_left h₁).symm

theorem extractDepsObject_dependencies {pkg : PublishPackage Badge} (h : Clean json pkg) :
    extractDepsObject (oneLine (generateIndexEntry json pkg)) "dependencies".toList =
      depTexts pkg.dependencies ∅ := by
  have hname : oneLine pkg.name.toList ≠ "dependencies".toList :=
    oneLine_name_ne (fun heq => h.name_ne (by simp [heq])) (by decide)
  have hfront : ∀ p ∈ frontPieces pkg, '"' ∉ p ∧ p ≠ "dependencies".toList :=
    forall_mem_frontPieces h (by decide) (by decide) hname
  rw [oneLine_generateIndexEntry h, List.append_assoc, List.cons_append, depsPieces]
  by_cases hnil : pkg.dependencies = []
  · rw [if_pos hnil, hnil, extractDepsObject, List.singleton_append,
      afterFirst_pieces (by decide) (by decide) hfront]
    have hempty : readPairs [] ∅ = ∅ := readPairs_of_not_mem List.not_mem_nil ∅
    exact hempty
  · rw [if_neg hnil, extractDepsObject, List.cons_append,
      afterFirst_pieces (by decide) (by decide) hfront, pieces_append,
      show "   \x7d,   ".toList = "   ".toList ++ "\x7d,   ".toList by decide,
      pieces_depPieces_append _ _ hnil]
    generalize hrest : pieces ["checksum".toList, ": ".toList, pkg.contentChecksum,
      tailPiece json pkg.capsBadge] = rest
    have hopen : cut '{' (": \x7b     ".toList ++
        (pieces (depPieces "   ".toList pkg.dependencies) ++ "\x7d,   ".toList ++ rest)) =
        some (": ".toList, "     ".toList ++ pieces (depPieces "   ".toList pkg.dependencies) ++
          '}' :: (",   ".toList ++ rest)) := by
      rw [← cut_append (show '{' ∉ ": ".toList by decide)]
      simp
    simp only [hopen, cut_append (brace_not_mem_depPieces h.deps)]
    exact readPairs_depPieces (by decide) (by decide) hnil h.deps ∅

/-- The old key is not found behind the checksum. -/
theorem afterFirst_tailPiece {pkg : PublishPackage Badge} (h : Clean json pkg)
    (hnil : pkg.dependencies = []) :
    afterFirst (quoted "deps".toList) ('"' :: tailPiece json pkg.capsBadge) = none := by
  cases hbadge : pkg.capsBadge with
  | none => rfl
  | some b =>
    have hfield : oneLine ",\n  \"capabilities\": ".toList = ",   \"capabilities\": ".toList := by
      decide
    have htail : '"' :: tailPiece json (some b) = [] ++ pieces [",   ".toList, "capabilities".toList] ++
        '"' :: (": ".toList ++ (oneLine (json.toJson b) ++ " \x7d".toList)) := by
      show '"' :: (oneLine (",\n  \"capabilities\": ".toList ++ json.toJson b) ++ " \x7d".toList) = _
      rw [oneLine_append, hfield]
      simp [pieces]
    have hpieces : ∀ p ∈ [",   ".toList, "capabilities".toList], '"' ∉ p ∧ p ≠ "deps".toList := by
      decide
    have hpass := (@passes_of_not_mem "deps".toList [] List.not_mem_nil).append_pieces
      (by decide) hpieces
    have hpre : ¬ (quoted "deps".toList).isPrefixOf
        ('"' :: (": ".toList ++ (oneLine (json.toJson b) ++ " \x7d".toList))) = true := by
      simp [quoted, List.isPrefixOf]
    rw [htail, hpass, afterFirst, if_neg hpre, afterFirst_of_not_mem (by decide)]
    exact (h.fallback hnil).2 b hbadge

theorem extractDepsObject_deps {pkg : PublishPackage Badge} (h : Clean json pkg)
    (hnil : pkg.dependencies = []) :
    extractDepsObject (oneLine (generateIndexEntry json pkg)) "deps".toList = ∅ := by
  rw [oneLine_generateIndexEntry h, hnil]
  by_cases hname : pkg.name = "deps"
  · have hbrace := (h.fallback hnil).1 hname
    have hword : oneLine "deps".toList = "deps".toList := by decide
    have hfront : ∀ p ∈ ["name".toList, ": ".toList], '"' ∉ p ∧ p ≠ "deps".toList := by decide
    have hfind := afterFirst_pieces (show '"' ∉ "\x7b   ".toList by decide) (by decide) hfront
      ",   ".toList ["version".toList, ": ".toList, pkg.version.toString.toList, ",   ".toList,
        "dependencies".toList, ": \x7b\x7d,   ".toList, "checksum".toList, ": ".toList,
        pkg.contentChecksum, tailPiece json pkg.capsBadge]
    have hopen : ∃ front rest, '{' ∉ front ∧ ",   ".toList ++ pieces ["version".toList, ": ".toList,
        pkg.version.toString.toList, ",   ".toList, "dependencies".toList, ": \x7b\x7d,   ".toList,
        "checksum".toList, ": ".toList, pkg.contentChecksum, tailPiece json pkg.capsBadge] =
          front ++ '{' :: '}' :: rest := by
      refine ⟨",   ".toList ++ pieces ["version".toList, ": ".toList,
        pkg.version.toString.toList, ",   ".toList, "dependencies".toList, ": ".toList],
        ",   ".toList ++ pieces ["checksum".toList, ": ".toList, pkg.contentChecksum,
          tailPiece json pkg.capsBadge], ?_, ?_⟩
      · simp [pieces, hbrace]
      · simp [pieces]
    obtain ⟨front, rest, hfree, heq⟩ := hopen
    rw [heq] at hfind
    have hline : frontPieces pkg ++ "dependencies".toList :: depsPieces [] ++
        ["checksum".toList, ": ".toList, pkg.contentChecksum, tailPiece json pkg.capsBadge] =
        ["name".toList, ": ".toList] ++ "deps".toList :: ",   ".toList :: ["version".toList,
          ": ".toList, pkg.version.toString.toList, ",   ".toList, "dependencies".toList,
          ": \x7b\x7d,   ".toList, "checksum".toList, ": ".toList, pkg.contentChecksum,
          tailPiece json pkg.capsBadge] := by
      rw [frontPieces, hname, hword]
      rfl
    have hinner : cut '}' ('}' :: rest) = some ([], rest) := by rw [cut, if_pos rfl]
    rw [hline, extractDepsObject, hfind]
    simp only [cut_append hfree, hinner]
    exact readPairs_of_not_mem List.not_mem_nil ∅
  · have hname' := oneLine_name_ne hname (by decide)
    have hpieces : ∀ p ∈ frontPieces pkg ++ "dependencies".toList :: depsPieces [] ++
        ["checksum".toList, ": ".toList, pkg.contentChecksum], '"' ∉ p ∧ p ≠ "deps".toList := by
      intro p hp
      rcases List.mem_append.mp hp with hp | hp
      · rcases List.mem_append.mp hp with hp | hp
        · exact forall_mem_frontPieces h (by decide) (by decide) hname' p hp
        · exact (show ∀ p ∈ "dependencies".toList :: depsPieces [], '"' ∉ p ∧ p ≠ "deps".toList by
            decide) p hp
      · simp only [List.mem_cons, List.not_mem_nil, or_false] at hp
        rcases hp with rfl | rfl | rfl
        · exact ⟨by decide, by decide⟩
        · exact ⟨by decide, by decide⟩
        · refine ⟨checksum_quote h, fun heq => ?_⟩
          obtain ⟨hex, hchecksum, -⟩ := h.checksum
          have hhead := congrArg List.head? (hchecksum.symm.trans heq)
          exact absurd hhead (by simp)
    have hpass := (passes_of_not_mem (show '"' ∉ "\x7b   ".toList by decide)).append_pieces
      (by decide) hpieces
    have hline : "\x7b   ".toList ++ pieces (frontPieces pkg ++ "dependencies".toList :: depsPieces [] ++
        ["checksum".toList, ": ".toList, pkg.contentChecksum, tailPiece json pkg.capsBadge]) =
        "\x7b   ".toList ++ pieces (frontPieces pkg ++ "dependencies".toList :: depsPieces [] ++
          ["checksum".toList, ": ".toList, pkg.contentChecksum]) ++
          '"' :: tailPiece json pkg.capsBadge := by
      simp [pieces]
    have hnone : afterFirst (quoted "deps".toList) _ = none :=
      (hpass (tailPiece json pkg.capsBadge)).trans (afterFirst_tailPiece h hnil)
    rw [hline, extractDepsObject, hnone]

theorem lookup_depTexts (hnodup : (deps.map Prod.fst).Nodup) (result : DepTexts) (k v : List Char) :
    (depTexts deps result).lookup k = some v ↔
      (∃ dep ∈ deps, dep.1.toList = k ∧ dep.2.display = v) ∨
        (∀ dep ∈ deps, dep.1.toList ≠ k) ∧ result.lookup k = some v := by
  induction deps generalizing result with
  | nil => simp [depTexts]
  | cons dep deps ih =>
    rw [List.map_cons, List.nodup_cons] at hnodup
    have hstep : depTexts (dep :: deps) result =
        depTexts deps (result.insert dep.1.toList dep.2.display) := rfl
    rw [hstep, ih hnodup.2, List.exists_mem_cons_iff, List.forall_mem_cons]
    by_cases hk : dep.1.toList = k
    · have hfree : ∀ d ∈ deps, d.1.toList ≠ k := by
        intro d hd heq
        refine hnodup.1 (List.mem_map.mpr ⟨d, hd, ?_⟩)
        exact String.toList_inj.mp (heq.trans hk.symm)
      subst hk
      rw [AList.lookup_insert]
      simp only [ne_eq, not_true_eq_false, false_and, or_false, true_and, Option.some.injEq]
      constructor
      · rintro (⟨d, hd, heq, -⟩ | ⟨-, rfl⟩)
        · exact absurd heq (hfree d hd)
        · exact .inl rfl
      · rintro (rfl | ⟨d, hd, heq, -⟩)
        · exact .inr ⟨hfree, rfl⟩
        · exact absurd heq (hfree d hd)
    · rw [AList.lookup_insert_ne (Ne.symm hk)]
      simp [hk]

/-- What `lookup` should return for the package. -/
structure Restored (pkg : PublishPackage Badge) (e : RegistryEntry Badge) : Prop where
  version : e.version = pkg.version
  checksum : e.checksum = pkg.contentChecksum
  dependencies : ∀ k v, e.dependencies.lookup k = some v ↔
    ∃ dep ∈ pkg.dependencies, dep.1.toList = k ∧ dep.2.display = v

theorem parseIndexEntry_oneLine {pkg : PublishPackage Badge} (h : Clean json pkg) (name : String) :
    ∃ e, parseIndexEntry json (oneLine (generateIndexEntry json pkg)) name = some e ∧
      Restored pkg e := by
  have hread : (Version.fromStr (String.ofList pkg.version.toString.toList)).toOption =
      some pkg.version := by
    rw [String.ofList_toList, Version.fromStr_toString h.version]
    rfl
  have hdeps : (if (depTexts pkg.dependencies ∅).entries = [] then
      extractDepsObject (oneLine (generateIndexEntry json pkg)) "deps".toList
      else depTexts pkg.dependencies ∅) = depTexts pkg.dependencies ∅ := by
    split
    · rename_i hempty
      have hnil : pkg.dependencies = [] := by
        refine List.eq_nil_iff_forall_not_mem.mpr fun dep hdep => ?_
        have hmem := (lookup_depTexts pkg.nodup ∅ dep.1.toList dep.2.display).mpr
          (.inl ⟨dep, hdep, rfl, rfl⟩)
        rw [show depTexts pkg.dependencies ∅ = ∅ from AList.ext hempty, AList.lookup_empty] at hmem
        cases hmem
      rw [extractDepsObject_deps h hnil, hnil]
      rfl
    · rfl
  have hparse : parseIndexEntry json (oneLine (generateIndexEntry json pkg)) name =
      some ⟨name, pkg.version, pkg.contentChecksum, depTexts pkg.dependencies ∅,
        (extractJsonString (oneLine (generateIndexEntry json pkg)) "download_url".toList).getD
          (releaseUrl name pkg.version),
        json.capabilities (oneLine (generateIndexEntry json pkg))⟩ := by
    simp only [parseIndexEntry, extract_version h, extract_checksum h,
      extractDepsObject_dependencies h, hdeps, hread, Option.bind_eq_bind, Option.bind_some,
      Option.getD_some]
    rfl
  refine ⟨_, hparse, rfl, rfl, fun k v => ?_⟩
  rw [lookup_depTexts pkg.nodup]
  simp

theorem trim_eq_self {c d : Char} (hhead : l.head? = some c) (hlast : l.getLast? = some d)
    (hc : isWhitespace c = false) (hd : isWhitespace d = false) : trim l = l := by
  obtain ⟨t, rfl⟩ := List.head?_eq_some_iff.mp hhead
  rw [trim, List.dropWhile_cons_of_neg (by simp [hc])]
  rw [List.getLast?_eq_head?_reverse] at hlast
  obtain ⟨t', ht'⟩ := List.head?_eq_some_iff.mp hlast
  rw [ht', List.dropWhile_cons_of_neg (by simp [hd]), ← ht', List.reverse_reverse]

theorem parseLine_of_trim {name : String} {line : List Char} {c : Char} (htrim : trim line = c :: l)
    (hc : c ≠ '#') : parseLine json name line = parseIndexEntry json (c :: l) name := by
  rw [parseLine, htrim]
  split
  · rename_i heq
    cases heq
  · rename_i heq
    cases heq
    exact absurd rfl hc
  · rfl

theorem lookupEntries_append (before after : List Char) (name : String) :
    lookupEntries json (before ++ '\n' :: after) name =
      lookupEntries json before name ++ lookupEntries json after name := by
  rw [lookupEntries, splitAt_append_sep, List.filterMap_append]
  rfl

theorem lookupEntries_line {line : List Char} (h : '\n' ∉ line) (name : String) :
    lookupEntries json line name = (parseLine json name line).toList := by
  rw [lookupEntries, splitAt_of_not_mem h]
  cases hline : parseLine json name line <;> simp [hline]

/-- The entry starts and ends with a brace. -/
theorem trim_oneLine (pkg : PublishPackage Badge) :
    ∃ l, oneLine (generateIndexEntry json pkg) = '{' :: l ∧ trim ('{' :: l) = '{' :: l := by
  obtain ⟨body, hbody⟩ : ∃ body, generateIndexEntry json pkg = body ++ "\n\x7d".toList := ⟨_, rfl⟩
  obtain ⟨l, hl⟩ : ∃ l, oneLine (generateIndexEntry json pkg) = '{' :: l := ⟨_, rfl⟩
  have hlast : ('{' :: l).getLast? = some '}' := by
    rw [← hl, hbody, oneLine_append, List.getLast?_append_of_ne_nil _ (by decide)]
    decide
  exact ⟨l, hl, trim_eq_self rfl hlast (by decide) (by decide)⟩

/-- **An entry on one line** is read back, behind what was there. -/
theorem lookupEntries_oneLine {pkg : PublishPackage Badge} (h : Clean json pkg)
    (before : List Char) : ∃ e,
      lookupEntries json (before ++ '\n' :: oneLine (generateIndexEntry json pkg)) pkg.name =
        lookupEntries json before pkg.name ++ [e] ∧ Restored pkg e := by
  obtain ⟨e, hparse, he⟩ := parseIndexEntry_oneLine h pkg.name
  obtain ⟨l, hl, htrim⟩ := @trim_oneLine _ json pkg
  refine ⟨e, ?_, he⟩
  rw [lookupEntries_append, lookupEntries_line (newline_not_mem_oneLine _)]
  rw [hl] at hparse ⊢
  rw [parseLine_of_trim htrim (by decide), hparse]
  rfl

end OneLine

/-! ## An entry over several lines -/

section Alone

variable {Badge : Type} {json : BadgeJson Badge}

/-- The line with the version. -/
def versionLine (pkg : PublishPackage Badge) : List Char :=
  "  \"version\": \"".toList ++ pkg.version.toString.toList ++ "\",".toList

theorem trim_blanks (l : List Char) : trim (' ' :: ' ' :: l) = trim l := by
  rw [trim, trim, List.dropWhile_cons_of_pos (by decide), List.dropWhile_cons_of_pos (by decide)]

/-- It makes an entry without a checksum. -/
theorem parseLine_versionLine {pkg : PublishPackage Badge} (hv : pkg.version.Valid)
    (hquote : '"' ∉ pkg.version.toString.toList) (name : String) :
    ∃ e, parseLine json name (versionLine pkg) = some e ∧ e.checksum = [] := by
  have hpieces : versionLine pkg = "  ".toList ++ pieces ["version".toList, ": ".toList,
      pkg.version.toString.toList, ",".toList] := by
    show "  \"version\": \"".toList ++ pkg.version.toString.toList ++ "\",".toList = _
    simp [pieces]
  have htrim : trim (versionLine pkg) = '"' :: ("version".toList ++ pieces [": ".toList,
      pkg.version.toString.toList, ",".toList]) := by
    rw [hpieces]
    refine (trim_blanks _).trans (trim_eq_self rfl (d := ',') ?_ (by decide) (by decide))
    have hlast : ('"' :: "version".toList ++ pieces [": ".toList,
        pkg.version.toString.toList, ",".toList]) =
          ('"' :: "version\": \"".toList ++ pkg.version.toString.toList) ++ "\",".toList := by
      simp [pieces]
    show ('"' :: "version".toList ++ pieces [": ".toList, pkg.version.toString.toList,
      ",".toList]).getLast? = some ','
    rw [hlast, List.getLast?_append_of_ne_nil _ (by decide)]
    rfl
  have hextract : extractJsonString ('"' :: ("version".toList ++ pieces [": ".toList,
      pkg.version.toString.toList, ",".toList])) "version".toList =
        some pkg.version.toString.toList :=
    @extractJsonString_pieces _ [] List.not_mem_nil (by decide) [] nofun _ hquote _ []
  have hchecksum : extractJsonString ('"' :: ("version".toList ++ pieces [": ".toList,
      pkg.version.toString.toList, ",".toList])) "checksum".toList = none := by
    have hne : ∀ p ∈ ["version".toList, ": ".toList, pkg.version.toString.toList],
        '"' ∉ p ∧ p ≠ "checksum".toList := by
      simp only [List.forall_mem_cons]
      exact ⟨⟨by decide, by decide⟩, ⟨by decide, by decide⟩,
        ⟨hquote, version_ne _ (by decide)⟩, nofun⟩
    have hpass := (@passes_of_not_mem "checksum".toList [] List.not_mem_nil).append_pieces
      (by decide) hne ",".toList
    have hsplit : '"' :: ("version".toList ++ pieces [": ".toList, pkg.version.toString.toList,
        ",".toList]) = [] ++ pieces ["version".toList, ": ".toList,
          pkg.version.toString.toList] ++ '"' :: ",".toList := by
      simp [pieces]
    rw [extractJsonString, hsplit, hpass]
    rfl
  have hread : (Version.fromStr (String.ofList pkg.version.toString.toList)).toOption =
      some pkg.version := by
    rw [String.ofList_toList, Version.fromStr_toString hv]
    rfl
  rw [parseLine_of_trim htrim (by decide), parseIndexEntry, hextract]
  simp only [Option.bind_eq_bind, Option.bind_some, hread, hchecksum]
  exact ⟨_, rfl, rfl⟩

/-- **An entry over several lines** is not read back. -/
theorem checksum_of_mem_lookupEntries {pkg : PublishPackage Badge} (hv : pkg.version.Valid)
    (hquote : '"' ∉ pkg.version.toString.toList) (hnewline : '\n' ∉ pkg.version.toString.toList)
    (name : String) :
    ∃ e ∈ lookupEntries json (generateIndexEntry json pkg) name, e.checksum = [] := by
  obtain ⟨e, hline, he⟩ := @parseLine_versionLine _ json _ hv hquote name
  obtain ⟨front, rest, hentry⟩ : ∃ front rest, generateIndexEntry json pkg =
      front ++ '\n' :: (versionLine pkg ++ '\n' :: rest) := by
    refine ⟨"\x7b\n  \"name\": \"".toList ++ pkg.name.toList ++ "\",".toList,
      "  \"dependencies\": ".toList ++ depsJson pkg.dependencies ++
      ",\n  \"checksum\": \"".toList ++ pkg.contentChecksum ++ "\"".toList ++
      capsField json pkg.capsBadge ++ "\n\x7d".toList, ?_⟩
    show "\x7b\n  \"name\": \"".toList ++ pkg.name.toList ++
      "\",\n  \"version\": \"".toList ++ pkg.version.toString.toList ++
      "\",\n  \"dependencies\": ".toList ++ depsJson pkg.dependencies ++
      ",\n  \"checksum\": \"".toList ++ pkg.contentChecksum ++ "\"".toList ++
      capsField json pkg.capsBadge ++ "\n\x7d".toList = _ ++ '\n' :: ("  \"version\": \"".toList ++
        pkg.version.toString.toList ++ "\",".toList ++ '\n' :: _)
    simp
  have hfree : '\n' ∉ versionLine pkg := by
    show '\n' ∉ "  \"version\": \"".toList ++ pkg.version.toString.toList ++ "\",".toList
    simp [hnewline]
  refine ⟨e, ?_, he⟩
  rw [hentry, lookupEntries_append, lookupEntries_append, lookupEntries_line hfree, hline]
  simp

end Alone

/-! ## Both layouts -/

/-- How an entry is put into the index file: by itself, as it was printed, or on a line of its own
behind other entries. -/
inductive Layout where
  | alone
  | collapsed (before : List Char)

def Layout.store : Layout → List Char → List Char
  | alone, text => text
  | collapsed before, text => before ++ '\n' :: oneLine text

section Both

variable {Badge : Type} (json : BadgeJson Badge)

/-- What was in the file. -/
def Layout.others (layout : Layout) (name : String) : List (RegistryEntry Badge) :=
  match layout with
  | alone => []
  | collapsed before => lookupEntries json before name

/-- The entry is read back, and the others are as they were. -/
def EntryRoundTrips (layout : Layout) (pkg : PublishPackage Badge) : Prop :=
  ∃ e, lookupEntries json (layout.store (generateIndexEntry json pkg)) pkg.name =
    layout.others json pkg.name ++ [e] ∧ Restored pkg e

theorem not_entryRoundTrips_alone {pkg : PublishPackage Badge} (hv : pkg.version.Valid)
    (hquote : '"' ∉ pkg.version.toString.toList) (hnewline : '\n' ∉ pkg.version.toString.toList)
    (hchecksum : pkg.contentChecksum ≠ []) : ¬ EntryRoundTrips json .alone pkg := by
  rintro ⟨e, hlookup, he⟩
  obtain ⟨e', he', hempty⟩ := @checksum_of_mem_lookupEntries _ json _ hv hquote hnewline pkg.name
  have hentries : lookupEntries json (generateIndexEntry json pkg) pkg.name = [e] := hlookup
  rw [hentries, List.mem_singleton] at he'
  rw [he', he.checksum] at hempty
  exact hchecksum hempty

/-- **Which layouts are read back.** -/
theorem entryRoundTrips_iff (pkg : PublishPackage Badge) (h : Clean json pkg) (layout : Layout) :
    EntryRoundTrips json layout pkg ↔ layout ≠ .alone := by
  cases layout with
  | alone =>
    have hchecksum : pkg.contentChecksum ≠ [] := by
      obtain ⟨hex, heq, -⟩ := h.checksum
      rw [heq]
      simp
    have hnot := not_entryRoundTrips_alone json h.version h.version_quote h.version_newline hchecksum
    exact ⟨fun hround => absurd hround hnot, fun hne => absurd rfl hne⟩
  | collapsed before =>
    exact ⟨fun _ => nofun, fun _ => lookupEntries_oneLine h before⟩

end Both

/-- No package has a badge. -/
def noBadges : BadgeJson Unit where
  toJson _ := "\x7b\x7d".toList
  capabilities _ := none

/-- A package with one dependency from the registry. -/
def publishedPackage (name dep : String) : PublishPackage Unit where
  name := name
  version := ⟨1, 0, 0, none⟩
  dependencies := [(dep, .remote "" ⟨.caret, ⟨1, 0, 0, none⟩⟩)]
  nodup := List.nodup_cons.mpr ⟨List.not_mem_nil, List.nodup_nil⟩
  capsBadge := none
  contentChecksum := "sha256:ab".toList

theorem clean_publishedPackage : Clean noBadges (publishedPackage "http" "json") where
  version := ⟨by decide, by decide, by decide, by decide⟩
  version_quote := by decide
  version_newline := by decide
  name_quote := by decide
  name_ne := by decide
  deps := by
    intro dep hdep
    rw [List.mem_singleton.mp hdep]
    exact ⟨by decide, by decide, by decide, by decide,
      by decide, by decide, by decide, by decide⟩
  checksum := ⟨"ab".toList, by decide, by decide, by decide⟩
  fallback := nofun

theorem entryRoundTrips_iff_http :
    EntryRoundTrips noBadges (.collapsed "# packages".toList) (publishedPackage "http" "json") ∧
      ¬ EntryRoundTrips noBadges .alone (publishedPackage "http" "json") :=
  ⟨(entryRoundTrips_iff noBadges _ clean_publishedPackage (.collapsed _)).mpr nofun,
    fun h => (entryRoundTrips_iff noBadges _ clean_publishedPackage .alone).mp h rfl⟩

/-- As it was printed, the entry comes back without its checksum; on one line, the entry of a package
that is named `version` is not found at all. -/
theorem printed_entry_is_not_restored :
    ¬ EntryRoundTrips noBadges .alone (publishedPackage "http" "json") ∧
      ¬ EntryRoundTrips noBadges (.collapsed []) (publishedPackage "version" "json") := by
  refine ⟨not_entryRoundTrips_alone noBadges ⟨by decide, by decide, by decide, by decide⟩
    (by decide +kernel) (by decide +kernel) (by decide), ?_⟩
  rintro ⟨e, hlookup, -⟩
  have hnone : lookupEntries noBadges
      (oneLine (generateIndexEntry noBadges (publishedPackage "version" "json"))) "version" = [] := by
    rw [lookupEntries_line (newline_not_mem_oneLine _)]
    have hline : (parseLine noBadges "version" (oneLine (generateIndexEntry noBadges
        (publishedPackage "version" "json")))).isNone = true := by decide +kernel
    rw [Option.isNone_iff_eq_none.mp hline]
    rfl
  have hsplit := (lookupEntries_append [] _ "version").symm.trans hlookup
  rw [hnone] at hsplit
  have hlength := congrArg List.length hsplit
  rw [List.length_append, List.length_append, Layout.others] at hlength
  simp [publishedPackage] at hlength

end Kryos.Package

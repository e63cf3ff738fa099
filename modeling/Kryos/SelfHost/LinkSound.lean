import Kryos.SelfHost.LinkPasses

/-!
# What a link should do, and when it does

A name in an object file means the file's own local symbol, else the one global definition of the
name, else, for the names of the section bases, the start of the file's own part of the section.
`Linked` says that an image has been linked so. `link_exe` knows none of these scopes: it takes the
first definition of a name that it meets, local or global and of whichever input, reports duplicate
and undefined symbols without failing, and gives the section bases of the merged image to every
input.

## Main results

* `linkExe_links_iff` — for images below 2 GiB and relocations that do not overlap: a link is right
  iff it is refused or the first definition of every name is the one it should be
* `duplicate_is_linked` — two inputs that both define `main` are linked
-/

namespace Kryos.SelfHost.Linker

open LittleEndian

/-! ## The layout -/

inductive Section where
  | text
  | data
  | rodata
  deriving DecidableEq, Repr

namespace Section

/-- The section of a symbol; the other codes name no part of the image. -/
def ofCode (code : ℤ) : Option Section :=
  if code = lsecText then some text
  else if code = lsecData then some data
  else if code = lsecRodata then some rodata
  else none

/-- What an input contributes to the section. -/
def part : Section → LinkerInput → Buf
  | text => LinkerInput.textData
  | data => LinkerInput.dataData
  | rodata => LinkerInput.rodataData

def align : Section → ℤ
  | text => 16
  | data => 8
  | rodata => 8

def base (bases : Bases) : Section → ℤ
  | text => bases.text
  | data => bases.data
  | rodata => bases.rodata

/-- The merged section. -/
def merged (inputs : List LinkerInput) (sec : Section) : Buf :=
  mergeParts sec.align (inputs.map sec.part)

/-- The address at which the part of input `i` starts. -/
def start (inputs : List LinkerInput) (bases : Bases) (sec : Section) (i : ℕ) : ℤ :=
  sec.base bases + partStart sec.align (inputs.map sec.part) i

end Section

/-- The base addresses for a target. -/
def targetBases (targetOs : String) (inputs : List LinkerInput) : Bases :=
  if targetOs = "linux" then
    elfBases (Section.text.merged inputs).length (Section.data.merged inputs).length
  else peBases (Section.text.merged inputs).length (Section.data.merged inputs).length

/-! ## What a name means -/

/-- A definition, or the start of a section. -/
inductive Target where
  | symbol (j : ℕ) (sym : LinkerSymbol)
  | start (sec : Section)
  deriving DecidableEq, Repr

def DefinedIn (inputs : List LinkerInput) (j : ℕ) (sym : LinkerSymbol) : Prop :=
  ∃ inp, inputs[j]? = some inp ∧ sym ∈ inp.symbols ∧ sym.sec ≠ lsecUndef

def OwnLocal (inputs : List LinkerInput) (i : ℕ) (name : String) (sym : LinkerSymbol) : Prop :=
  DefinedIn inputs i sym ∧ sym.isGlobal = false ∧ sym.name = name

def GlobalDefinition (inputs : List LinkerInput) (j : ℕ) (name : String) (sym : LinkerSymbol) :
    Prop :=
  DefinedIn inputs j sym ∧ sym.isGlobal = true ∧ sym.name = name

def sectionBase (name : String) : Option Section :=
  if name = "__text_base" then some .text
  else if name = "__data_base" then some .data
  else if name = "__rodata_base" then some .rodata
  else none

/-- What a name means for input `i`. -/
inductive Denotes (inputs : List LinkerInput) (i : ℕ) (name : String) : Target → Prop
  | own {sym : LinkerSymbol} (h : OwnLocal inputs i name sym) :
    Denotes inputs i name (.symbol i sym)
  | global {j : ℕ} {sym : LinkerSymbol} (hown : ∀ s, ¬ OwnLocal inputs i name s)
    (h : GlobalDefinition inputs j name sym) : Denotes inputs i name (.symbol j sym)
  | base {sec : Section} (hown : ∀ s, ¬ OwnLocal inputs i name s)
    (hglobal : ∀ j s, ¬ GlobalDefinition inputs j name s) (h : sectionBase name = some sec) :
    Denotes inputs i name (.start sec)

/-- The address of what a name means for input `i`, if it is part of the image. -/
def Target.address (inputs : List LinkerInput) (bases : Bases) (i : ℕ) : Target → Option ℤ
  | symbol j sym => (Section.ofCode sym.sec).map fun sec => sec.start inputs bases j + sym.offset
  | start sec => some (sec.start inputs bases i)

/-! ## A linked image -/

/-- The address a relocation of input `i` patches. -/
def relocSite (inputs : List LinkerInput) (bases : Bases) (i : ℕ) (reloc : LinkerReloc) : ℤ :=
  Section.text.start inputs bases i + reloc.offset

/-- The values a field can hold: displacements are signed, 32-bit addresses are not. -/
def fieldRange (relType : ℤ) : ℤ × ℤ :=
  if relType = lrelPc32 then (-2 ^ 31, 2 ^ 31)
  else if relType = lrelAbs64 then (-2 ^ 63, 2 ^ 63)
  else (0, 2 ^ 32)

def FitsField (reloc : LinkerReloc) (value : ℤ) : Prop :=
  (fieldRange reloc.relType).1 ≤ value ∧ value < (fieldRange reloc.relType).2

instance (reloc : LinkerReloc) (value : ℤ) : Decidable (FitsField reloc value) :=
  inferInstanceAs (Decidable (_ ∧ _))

/-- The relocation is of a known type and its field of `w` bytes lies in the `.text` of its
input. -/
def HasField (inp : LinkerInput) (reloc : LinkerReloc) (w : ℕ) : Prop :=
  fieldWidth reloc.relType = some w ∧ 0 ≤ reloc.offset ∧
    reloc.offset + w ≤ inp.textData.length

/-- Position `p` of the `.text` of the input is in a field. -/
def InField (inp : LinkerInput) (p : ℕ) : Prop :=
  ∃ reloc ∈ inp.relocations, ∃ w, fieldWidth reloc.relType = some w ∧ reloc.offset ≤ p ∧
    p < reloc.offset + w

/-- The names of the global definitions. -/
def globalNames (inputs : List LinkerInput) : List String :=
  ((definitions inputs).filter (·.2.isGlobal)).map (·.2.name)

/-- Every symbol an input leaves undefined means something for it. -/
def NoUndefined (inputs : List LinkerInput) : Prop :=
  ∀ i inp, inputs[i]? = some inp → ∀ sym ∈ inp.symbols, sym.sec = lsecUndef →
    ∃ target, Denotes inputs i sym.name target

/-- An image in which every relocation is resolved to what its name means. -/
structure Linked (inputs : List LinkerInput) (bases : Bases) (image : ℤ → Option UInt8) : Prop where
  no_duplicate : (globalNames inputs).Nodup
  no_undefined : NoUndefined inputs
  relocated : ∀ i inp, inputs[i]? = some inp → ∀ reloc ∈ inp.relocations,
    ∃ w, HasField inp reloc w ∧ (∃ target, Denotes inputs i reloc.symbolName target) ∧
      ∀ target, Denotes inputs i reloc.symbolName target → ∃ a,
        target.address inputs bases i = some a ∧
        FitsField reloc (fieldValue reloc (relocSite inputs bases i reloc) a) ∧
        ∀ k < w, image (relocSite inputs bases i reloc + k) =
          (encode w (fieldValue reloc (relocSite inputs bases i reloc) a))[k]?
  /-- no byte outside the fields is changed -/
  unchanged : ∀ (sec : Section) i inp, inputs[i]? = some inp → ∀ p < (sec.part inp).length,
    ¬ (sec = .text ∧ InField inp p) →
      image (sec.start inputs bases i + p) = (sec.part inp)[p]?
  /-- the parts of the inputs do not overlap -/
  apart : ∀ (sec sec' : Section) i i' inp inp', inputs[i]? = some inp → inputs[i']? = some inp' →
    ∀ p < (sec.part inp).length, ∀ p' < (sec'.part inp').length,
      sec.start inputs bases i + p = sec'.start inputs bases i' + p' →
        sec = sec' ∧ i = i' ∧ p = p'

/-- What a link promises: if it reports success, the image it has written is linked. -/
def Links (inputs : List LinkerInput) (entryName outputPath targetOs : String) : Prop :=
  ∀ result file, linkExe inputs entryName outputPath targetOs = some (result, file) →
    result.success = true →
      ∃ image, file = some image ∧ Linked inputs (targetBases targetOs inputs) (load targetOs image)

/-! ## When it is kept -/

/-- The name is defined somewhere, or is that of a section base. -/
def Known (inputs : List LinkerInput) (name : String) : Prop :=
  (∃ d ∈ definitions inputs, d.2.name = name) ∨ (sectionBase name).isSome

/-- The links that are not refused, and do not abort: some input, a known target system, every name
defined somewhere, and no field that ends inside `.text` but begins before it. -/
structure Accepted (inputs : List LinkerInput) (entryName targetOs : String) : Prop where
  nonempty : inputs ≠ []
  target : targetOs = "linux" ∨ targetOs = "windows"
  entry : Known inputs entryName
  names : ∀ x ∈ relocations inputs, Known inputs x.2.symbolName
  sites : ∀ x ∈ relocations inputs, ¬ ∃ w, fieldWidth x.2.relType = some w ∧
    Wraps (Section.text.merged inputs).length
      (partStart 16 (inputs.map LinkerInput.textData) x.1 + x.2.offset) w

/-- The address of the first definition of a name in the order of the inputs; where there is none,
the base of the merged section it names. -/
def firstAddress (inputs : List LinkerInput) (bases : Bases) (name : String) : ℤ :=
  match firstDefinition (definitions inputs) name with
  | some (j, sym) => ((Target.symbol j sym).address inputs bases j).getD 0
  | none => ((sectionBase name).map (·.base bases)).getD 0

/-- No name is defined twice or not at all, and the first definition of a name lies where what the
name means does. -/
structure Unambiguous (inputs : List LinkerInput) (bases : Bases) : Prop where
  no_duplicate : (globalNames inputs).Nodup
  no_undefined : NoUndefined inputs
  first : ∀ i inp, inputs[i]? = some inp → ∀ reloc ∈ inp.relocations,
    ∃ w, HasField inp reloc w ∧ (∃ target, Denotes inputs i reloc.symbolName target) ∧
      ∀ target, Denotes inputs i reloc.symbolName target → ∃ a,
        target.address inputs bases i = some a ∧
        FitsField reloc (fieldValue reloc (relocSite inputs bases i reloc) a) ∧
        firstAddress inputs bases reloc.symbolName ≡ a [ZMOD 256 ^ w]

/-- The sections together are smaller than 2 GiB. -/
def Small (inputs : List LinkerInput) : Prop :=
  (Section.text.merged inputs).length + (Section.data.merged inputs).length +
    (Section.rodata.merged inputs).length < 2 ^ 31

instance (inputs : List LinkerInput) : Decidable (Small inputs) :=
  inferInstanceAs (Decidable (_ < _))

/-- No two relocations of an input patch the same byte. -/
def FieldsApart (inputs : List LinkerInput) : Prop :=
  ∀ inp ∈ inputs, inp.relocations.Pairwise fun (r r' : LinkerReloc) => ∀ w w' : ℕ,
    fieldWidth r.relType = some w → fieldWidth r'.relType = some w' →
      r.offset + w ≤ r'.offset ∨ r'.offset + w' ≤ r.offset

/-! ## The lists of the passes -/

variable {inputs : List LinkerInput}

theorem mem_definitions {j : ℕ} {sym : LinkerSymbol} :
    (j, sym) ∈ definitions inputs ↔ DefinedIn inputs j sym := by
  simp only [definitions, DefinedIn, List.mem_flatMap, List.mem_map, List.mem_filter, Prod.exists,
    List.mem_zipIdx_iff_getElem?, Prod.mk.injEq, decide_eq_true_eq]
  constructor
  · rintro ⟨inp, i, hi, s, ⟨hs, hsec⟩, rfl, rfl⟩
    exact ⟨inp, hi, hs, hsec⟩
  · rintro ⟨inp, hi, hs, hsec⟩
    exact ⟨inp, j, hi, sym, ⟨hs, hsec⟩, rfl, rfl⟩

variable {i : ℕ}

theorem mem_relocations {reloc : LinkerReloc} :
    (i, reloc) ∈ relocations inputs ↔ ∃ inp, inputs[i]? = some inp ∧ reloc ∈ inp.relocations := by
  simp only [relocations, List.mem_flatMap, List.mem_map, Prod.exists,
    List.mem_zipIdx_iff_getElem?, Prod.mk.injEq]
  constructor
  · rintro ⟨inp, i', hi, r, hr, rfl, rfl⟩
    exact ⟨inp, hi, hr⟩
  · rintro ⟨inp, hi, hr⟩
    exact ⟨inp, i, hi, reloc, hr, rfl, rfl⟩

/-! ## The layout -/

theorem targetBases_order (targetOs : String) (inputs : List LinkerInput) :
    (targetBases targetOs inputs).text + (Section.text.merged inputs).length ≤
        (targetBases targetOs inputs).data ∧
      (targetBases targetOs inputs).data + (Section.data.merged inputs).length ≤
        (targetBases targetOs inputs).rodata := by
  rw [targetBases]
  split_ifs
  · have haddr := linkAlignUp_spec (v := 4194480 + (Section.text.merged inputs).length) (a := 4096)
      (by omega) (by decide)
    exact ⟨haddr.1, le_rfl⟩
  · have ht := linkAlignUp_spec (v := (Section.text.merged inputs).length) (a := 4096) (by omega)
      (by decide)
    have hd := linkAlignUp_spec (v := (Section.data.merged inputs).length) (a := 4096) (by omega)
      (by decide)
    simp only [peBases, peImageBase, peTextRva, peSectionAlign]
    omega

variable {inp : LinkerInput}

theorem getElem?_map_part (hi : inputs[i]? = some inp) (sec : Section) :
    (inputs.map sec.part)[i]? = some (sec.part inp) := by
  rw [List.getElem?_map, hi, Option.map_some]

/-- A part lies in its merged section. -/
theorem part_in_merged (hi : inputs[i]? = some inp) (sec : Section) :
    partStart sec.align (inputs.map sec.part) i + (sec.part inp).length ≤
      (sec.merged inputs).length :=
  partStart_add_le_length (getElem?_map_part hi sec)

/-- Positions of one section: the parts of two inputs do not overlap. -/
theorem parts_apart (sec : Section) {i' : ℕ} {inp' : LinkerInput} (hi : inputs[i]? = some inp)
    (hi' : inputs[i']? = some inp') {p p' : ℕ} (hp : p < (sec.part inp).length)
    (hp' : p' < (sec.part inp').length)
    (heq : partStart sec.align (inputs.map sec.part) i + p =
      partStart sec.align (inputs.map sec.part) i' + p') : i = i' ∧ p = p' := by
  have hlt : ∀ {i i' : ℕ} {inp : LinkerInput}, inputs[i]? = some inp → i < i' →
      partStart sec.align (inputs.map sec.part) i + (sec.part inp).length ≤
        partStart sec.align (inputs.map sec.part) i' :=
    fun hi hlt => partStart_add_le (getElem?_map_part hi sec) hlt
  obtain hii' | rfl | hii' := lt_trichotomy i i'
  · have := hlt hi hii'
    omega
  · exact ⟨rfl, by omega⟩
  · have := hlt hi' hii'
    omega

/-- Addresses of the image: the parts do not overlap. -/
theorem starts_apart (targetOs : String) {sec sec' : Section} {i' : ℕ} {inp' : LinkerInput}
    (hi : inputs[i]? = some inp) (hi' : inputs[i']? = some inp') {p p' : ℕ}
    (hp : p < (sec.part inp).length) (hp' : p' < (sec'.part inp').length)
    (heq : sec.start inputs (targetBases targetOs inputs) i + p =
      sec'.start inputs (targetBases targetOs inputs) i' + p') : sec = sec' ∧ i = i' ∧ p = p' := by
  have horder := targetBases_order targetOs inputs
  have hin := part_in_merged hi sec
  have hin' := part_in_merged hi' sec'
  simp only [Section.start] at heq
  by_cases hsec : sec = sec'
  · subst hsec
    exact ⟨rfl, parts_apart sec hi hi' hp hp' (by omega)⟩
  · cases sec <;> cases sec' <;> simp only [Section.base] at heq <;> first | omega | contradiction

/-- The address of a symbol in the table. -/
theorem symbolAddress_eq (hsmall : Small inputs) (bases : Bases) {j : ℕ} {sym : LinkerSymbol}
    (hj : j < inputs.length) :
    symbolAddress (linkMergeSections inputs) bases j sym =
      ((Target.symbol j sym).address inputs bases j).getD 0 := by
  have hoff : ∀ sec : Section, (partOffsets sec.align (inputs.map sec.part)).getD j 0 =
      partStart sec.align (inputs.map sec.part) j := by
    intro sec
    refine partOffsets_getD (by rwa [List.length_map]) ?_
    have : (sec.merged inputs).length < 2 ^ 31 := by
      simp only [Small] at hsmall
      cases sec <;> omega
    exact this
  have htext := hoff .text
  have hdata := hoff .data
  have hrodata := hoff .rodata
  simp only [Section.align, Section.part] at htext hdata hrodata
  simp only [symbolAddress, linkMergeSections_eq, Target.address, Section.ofCode]
  split_ifs
  · rw [htext]
    rfl
  · rw [hdata]
    rfl
  · rw [hrodata]
    rfl
  · rfl

/-! ## Names in the table -/

theorem linkFindSymbol_synthetic (bases : Bases) (name : String) :
    (linkFindSymbol (syntheticSymbols bases) name).map (·.address) =
      (sectionBase name).map (·.base bases) := by
  simp only [linkFindSymbol, syntheticSymbols, sectionBase, List.find?_cons, List.find?_nil,
    eq_comm (b := name)]
  by_cases htext : name = "__text_base"
  · simp [htext, Section.base]
  · by_cases hdata : name = "__data_base"
    · simp [hdata, Section.base]
    · by_cases hrodata : name = "__rodata_base"
      · simp [hrodata, Section.base]
      · simp [htext, hdata, hrodata]

theorem firstDefinition_isSome_iff {name : String} :
    (firstDefinition (definitions inputs) name).isSome ↔
      ∃ d ∈ definitions inputs, d.2.name = name := by
  simp [firstDefinition, List.find?_isSome]

/-- A known name is in the table, with the address of its first definition. -/
theorem linkFindSymbol_address (hsmall : Small inputs) (bases : Bases) (name : String) :
    (linkFindSymbol (linkResolveSymbols inputs (linkMergeSections inputs) bases).1 name).map
        (·.address) =
      if (firstDefinition (definitions inputs) name).isSome ∨ (sectionBase name).isSome then
        some (firstAddress inputs bases name) else none := by
  rw [linkFindSymbol_table, firstAddress]
  cases hfirst : firstDefinition (definitions inputs) name with
  | none =>
    rw [Option.map_none, Option.none_or, linkFindSymbol_synthetic]
    cases sectionBase name <;> rfl
  | some d =>
    obtain ⟨j, sym⟩ := d
    obtain ⟨inp, hj, -, -⟩ := mem_definitions.mp (List.mem_of_find?_eq_some hfirst)
    have hlt : j < inputs.length := (List.getElem?_eq_some_iff.mp hj).1
    simp only [Option.map_some, Option.some_or, resolved, symbolAddress_eq hsmall bases hlt,
      Option.isSome_some, true_or, if_true]

theorem linkFindSymbol_isSome_iff (hsmall : Small inputs) (bases : Bases) (name : String) :
    (linkFindSymbol (linkResolveSymbols inputs (linkMergeSections inputs) bases).1 name).isSome ↔
      Known inputs name := by
  have h := congrArg Option.isSome (linkFindSymbol_address hsmall bases name)
  rw [Option.isSome_map] at h
  rw [h, Known, ← firstDefinition_isSome_iff]
  split_ifs with hknown
  · simp [hknown]
  · simp [hknown]

/-! ## Success -/

/-- The emitter for a target. -/
def emitFor (targetOs : String) :
    LinkerMerged → String → List ResolvedSymbol → String → LinkerResult × Option Buf :=
  if targetOs = "linux" then linkEmitElfExe else linkEmitPeExe

variable {entryName : String}

variable {outputPath targetOs : String}

theorem linkExe_eq (hne : inputs ≠ []) (hos : targetOs = "linux" ∨ targetOs = "windows") :
    linkExe inputs entryName outputPath targetOs =
      linkWith (emitFor targetOs) inputs (linkMergeSections inputs) (targetBases targetOs inputs)
        entryName outputPath := by
  have hlen : inputs.length ≠ 0 := fun h => hne (List.length_eq_zero_iff.mp h)
  rw [linkExe, if_neg hlen]
  obtain rfl | rfl := hos
  · simp only [if_true, emitFor, targetBases, linkMergeSections_eq]
    rfl
  · simp only [emitFor, targetBases, linkMergeSections_eq]
    rfl

variable {merged : LinkerMerged} {result : LinkerResult}

theorem linkWith_success
    {emit : LinkerMerged → String → List ResolvedSymbol → String → LinkerResult × Option Buf}
    {bases : Bases} {file : Option Buf}
    (hlink : linkWith emit inputs merged bases entryName outputPath = some (result, file))
    (hsuccess : result.success = true) :
    (linkFindSymbol (linkResolveSymbols inputs merged bases).1 entryName).isSome ∧
      ∃ text, linkApplyRelocations merged inputs (linkResolveSymbols inputs merged bases).1 bases =
          some (text, false) ∧
        emit { merged with text := text } entryName (linkResolveSymbols inputs merged bases).1
          outputPath = (result, file) := by
  simp only [linkWith] at hlink
  split at hlink
  · obtain rfl := (Prod.mk.inj (Option.some.inj hlink)).1
    simp at hsuccess
  split at hlink
  · obtain rfl := (Prod.mk.inj (Option.some.inj hlink)).1
    simp [entryNotFound] at hsuccess
  · rename_i entry hentry
    split at hlink
    · simp at hlink
    · obtain rfl := (Prod.mk.inj (Option.some.inj hlink)).1
      simp at hsuccess
    · rename_i text happly
      exact ⟨by rw [hentry]; rfl, text, happly, Option.some.inj hlink⟩

theorem linkWith_of_found
    {emit : LinkerMerged → String → List ResolvedSymbol → String → LinkerResult × Option Buf}
    {bases : Bases} {text : Buf}
    (hentry : (linkFindSymbol (linkResolveSymbols inputs merged bases).1 entryName).isSome)
    (happly : linkApplyRelocations merged inputs (linkResolveSymbols inputs merged bases).1 bases =
      some (text, false)) :
    linkWith emit inputs merged bases entryName outputPath =
      some (emit { merged with text := text } entryName
        (linkResolveSymbols inputs merged bases).1 outputPath) := by
  obtain ⟨entry, hentry⟩ := Option.isSome_iff_exists.mp hentry
  have hlen : (linkResolveSymbols inputs merged bases).1.length ≠ 0 := by
    intro h
    rw [List.length_eq_zero_iff.mp h] at hentry
    simp [linkFindSymbol] at hentry
  simp only [linkWith, if_neg hlen, hentry, happly]

theorem emitFor_success (targetOs path : String) (merged : LinkerMerged)
    {symbols : List ResolvedSymbol} (hentry : (linkFindSymbol symbols entryName).isSome) :
    ∃ image, emitFor targetOs merged entryName symbols path = (⟨true, "", path⟩, some image) := by
  obtain ⟨entry, hentry⟩ := Option.isSome_iff_exists.mp hentry
  rw [emitFor]
  split_ifs
  · rw [linkEmitElfExe, hentry]
    exact ⟨_, rfl⟩
  · rw [linkEmitPeExe, hentry]
    exact ⟨_, rfl⟩

theorem textOffsets_getD (hsmall : Small inputs) (hi : i < inputs.length) :
    (linkMergeSections inputs).textOffsets.getD i 0 =
      partStart 16 (inputs.map LinkerInput.textData) i := by
  rw [linkMergeSections_eq]
  refine partOffsets_getD (by rwa [List.length_map]) ?_
  simp only [Small] at hsmall
  have : (Section.text.merged inputs).length < 2 ^ 31 := by omega
  exact this

theorem lt_of_mem_relocations {x : ℕ × LinkerReloc} (hx : x ∈ relocations inputs) :
    x.1 < inputs.length := by
  obtain ⟨inp, hi, -⟩ := mem_relocations.mp hx
  exact (List.getElem?_eq_some_iff.mp hi).1

/-- The links that go through are those that are accepted. -/
theorem linkExe_success_iff (hsmall : Small inputs) (entryName outputPath targetOs : String) :
    (∃ result file, linkExe inputs entryName outputPath targetOs = some (result, file) ∧
      result.success = true) ↔ Accepted inputs entryName targetOs := by
  have hsites : ∀ x ∈ relocations inputs,
      (linkMergeSections inputs).textOffsets.getD x.1 0 + x.2.offset =
        partStart 16 (inputs.map LinkerInput.textData) x.1 + x.2.offset := fun x hx => by
    rw [textOffsets_getD hsmall (lt_of_mem_relocations hx)]
  have htext : (linkMergeSections inputs).text = Section.text.merged inputs := by
    rw [linkMergeSections_eq]
    rfl
  have happly : (∃ text, linkApplyRelocations (linkMergeSections inputs) inputs
      (linkResolveSymbols inputs (linkMergeSections inputs) (targetBases targetOs inputs)).1
      (targetBases targetOs inputs) = some (text, false)) ↔
      (∀ x ∈ relocations inputs, Known inputs x.2.symbolName) ∧
      ∀ x ∈ relocations inputs, ¬ ∃ w, fieldWidth x.2.relType = some w ∧
        Wraps (Section.text.merged inputs).length
          (partStart 16 (inputs.map LinkerInput.textData) x.1 + x.2.offset) w := by
    rw [linkApplyRelocations_eq, foldlM_applyOne_iff, ← htext]
    simp only [true_and, linkFindSymbol_isSome_iff hsmall]
    constructor
    · intro h
      refine ⟨fun x hx => (h x hx).1, fun x hx => ?_⟩
      rw [← hsites x hx]
      exact (h x hx).2
    · intro h x hx
      rw [hsites x hx]
      exact ⟨h.1 x hx, h.2 x hx⟩
  constructor
  · rintro ⟨result, file, hlink, hsuccess⟩
    have hne : inputs ≠ [] := by
      rintro rfl
      rw [linkExe] at hlink
      obtain rfl := (Prod.mk.inj (Option.some.inj hlink)).1
      simp at hsuccess
    have hos : targetOs = "linux" ∨ targetOs = "windows" := by
      by_contra hos
      rw [not_or] at hos
      have hlen : inputs.length ≠ 0 := fun h => hne (List.length_eq_zero_iff.mp h)
      simp only [linkExe, if_neg hlen, if_neg hos.1, if_neg hos.2] at hlink
      obtain rfl := (Prod.mk.inj (Option.some.inj hlink)).1
      simp at hsuccess
    rw [linkExe_eq hne hos] at hlink
    obtain ⟨hentry, text, htext', -⟩ := linkWith_success hlink hsuccess
    obtain ⟨hnames, hwraps⟩ := happly.mp ⟨text, htext'⟩
    exact ⟨hne, hos, (linkFindSymbol_isSome_iff hsmall _ _).mp hentry, hnames, hwraps⟩
  · intro h
    obtain ⟨text, htext'⟩ := happly.mpr ⟨h.names, h.sites⟩
    have hentry := (linkFindSymbol_isSome_iff hsmall (targetBases targetOs inputs) _).mpr h.entry
    obtain ⟨image, himage⟩ := emitFor_success targetOs outputPath
      { linkMergeSections inputs with text := text } hentry
    refine ⟨⟨true, "", outputPath⟩, some image, ?_, rfl⟩
    rw [linkExe_eq h.nonempty h.target, linkWith_of_found hentry htext', himage]

/-! ## The patched image -/

/-- The image as the linker makes it: every relocation stores the address of the first definition
of its name. -/
structure Patched (inputs : List LinkerInput) (bases : Bases) (image : ℤ → Option UInt8) :
    Prop where
  field : ∀ i inp, inputs[i]? = some inp → ∀ reloc ∈ inp.relocations, ∀ w, HasField inp reloc w →
    ∀ k < w, image (relocSite inputs bases i reloc + k) =
      (encode w (fieldValue reloc (relocSite inputs bases i reloc)
        (firstAddress inputs bases reloc.symbolName)))[k]?
  unchanged : ∀ (sec : Section) i inp, inputs[i]? = some inp → ∀ p < (sec.part inp).length,
    ¬ (sec = .text ∧ InField inp p) →
      image (sec.start inputs bases i + p) = (sec.part inp)[p]?

/-- The patch of a relocation that has a field. -/
def relocPatch (inputs : List LinkerInput) (bases : Bases) (x : ℕ × LinkerReloc) : ℕ × Buf :=
  ((partStart 16 (inputs.map LinkerInput.textData) x.1 + x.2.offset).toNat,
    encode ((fieldWidth x.2.relType).getD 0) (fieldValue x.2 (relocSite inputs bases x.1 x.2)
      (firstAddress inputs bases x.2.symbolName)))

section Patches

variable {inputs : List LinkerInput} {bases : Bases}

/-- The positions a relocation patches lie in the `.text` of its input. -/
theorem covers_relocPatch {i : ℕ} {inp : LinkerInput} {reloc : LinkerReloc} {w k : ℕ}
    (hw : HasField inp reloc w) :
    Covers (relocPatch inputs bases (i, reloc)) k ↔
      partStart 16 (inputs.map LinkerInput.textData) i + reloc.offset ≤ k ∧
        k < partStart 16 (inputs.map LinkerInput.textData) i + reloc.offset + w := by
  obtain ⟨hwidth, hoff, -⟩ := hw
  simp only [Covers, relocPatch, hwidth, Option.getD_some, length_encode]
  omega

variable (hfields : ∀ (i : ℕ) (inp : LinkerInput), inputs[i]? = some inp →
  ∀ reloc ∈ inp.relocations, ∃ w, HasField inp reloc w)

include hfields

theorem relocPatch_le : ∀ patch ∈ (relocations inputs).map (relocPatch inputs bases),
    patch.1 + patch.2.length ≤ (Section.text.merged inputs).length := by
  intro patch hpatch
  obtain ⟨⟨i, reloc⟩, hx, rfl⟩ := List.mem_map.mp hpatch
  obtain ⟨inp, hi, hreloc⟩ := mem_relocations.mp hx
  obtain ⟨w, hwidth, hoff, hend⟩ := hfields i inp hi reloc hreloc
  have hin := part_in_merged hi Section.text
  simp only [Section.align, Section.part] at hin
  simp only [relocPatch, hwidth, Option.getD_some, length_encode]
  omega

theorem relocPatch_apart (hapart : FieldsApart inputs) :
    ((relocations inputs).map (relocPatch inputs bases)).Pairwise
      fun q q' => ∀ k, ¬ (Covers q k ∧ Covers q' k) := by
  rw [List.pairwise_map, relocations, List.pairwise_flatMap]
  constructor
  · -- two relocations of one input
    rintro ⟨inp, i⟩ hmem
    have hi : inputs[i]? = some inp := List.mem_zipIdx_iff_getElem?.mp hmem
    rw [List.pairwise_map]
    refine (hapart inp (List.mem_of_getElem? hi)).imp_of_mem ?_
    rintro r r' hr hr' hrr' k ⟨hk, hk'⟩
    obtain ⟨w, hw⟩ := hfields i inp hi r hr
    obtain ⟨w', hw'⟩ := hfields i inp hi r' hr'
    rw [covers_relocPatch hw] at hk
    rw [covers_relocPatch hw'] at hk'
    have := hrr' w w' hw.1 hw'.1
    omega
  · -- relocations of two inputs
    have hlt : inputs.zipIdx.Pairwise fun a b => a.2 < b.2 := by
      have := List.pairwise_lt_range' (s := 0) (n := inputs.length)
      rwa [← List.zipIdx_map_snd, List.pairwise_map] at this
    refine hlt.imp_of_mem ?_
    rintro ⟨inp, i⟩ ⟨inp', i'⟩ hmem hmem' hii' x hx y hy k ⟨hk, hk'⟩
    obtain ⟨r, hr, rfl⟩ := List.mem_map.mp hx
    obtain ⟨r', hr', rfl⟩ := List.mem_map.mp hy
    have hi : inputs[i]? = some inp := List.mem_zipIdx_iff_getElem?.mp hmem
    have hi' : inputs[i']? = some inp' := List.mem_zipIdx_iff_getElem?.mp hmem'
    obtain ⟨w, hw⟩ := hfields i inp hi r hr
    obtain ⟨w', hw'⟩ := hfields i' inp' hi' r' hr'
    rw [covers_relocPatch hw] at hk
    rw [covers_relocPatch hw'] at hk'
    have hstarts : partStart 16 (inputs.map Section.text.part) i + (Section.text.part inp).length ≤
        partStart 16 (inputs.map Section.text.part) i' :=
      partStart_add_le (getElem?_map_part hi .text) hii'
    obtain ⟨-, -, hend⟩ := hw
    obtain ⟨-, hoff', -⟩ := hw'
    simp only [Section.part] at hstarts
    omega

/-- The bytes of the patched `.text`. -/
theorem getElem?_patched_text (hapart : FieldsApart inputs) {i : ℕ} {inp : LinkerInput}
    (hi : inputs[i]? = some inp) :
    (∀ reloc ∈ inp.relocations, ∀ w, HasField inp reloc w → ∀ k < w,
      (splices (Section.text.merged inputs) ((relocations inputs).map (relocPatch inputs bases)))[
          (partStart 16 (inputs.map LinkerInput.textData) i + reloc.offset).toNat + k]? =
        (encode w (fieldValue reloc (relocSite inputs bases i reloc)
          (firstAddress inputs bases reloc.symbolName)))[k]?) ∧
    ∀ p < inp.textData.length, ¬ InField inp p →
      (splices (Section.text.merged inputs) ((relocations inputs).map (relocPatch inputs bases)))[
        partStart 16 (inputs.map LinkerInput.textData) i + p]? = inp.textData[p]? := by
  constructor
  · intro reloc hreloc w hw k hk
    have hmem : relocPatch inputs bases (i, reloc) ∈
        (relocations inputs).map (relocPatch inputs bases) :=
      List.mem_map_of_mem (mem_relocations.mpr ⟨inp, hi, hreloc⟩)
    have hcovers : Covers (relocPatch inputs bases (i, reloc))
        ((partStart 16 (inputs.map LinkerInput.textData) i + reloc.offset).toNat + k) := by
      rw [covers_relocPatch hw]
      have := hw.2.1
      omega
    rw [getElem?_splices_of_mem (relocPatch_le hfields) (relocPatch_apart hfields hapart) hmem
      hcovers]
    simp only [relocPatch, hw.1, Option.getD_some]
    rw [Nat.add_sub_cancel_left]
  · intro p hp hfield
    rw [getElem?_splices_of_not_covers (relocPatch_le hfields)]
    · exact getElem?_mergeParts (getElem?_map_part hi .text) hp
    · -- a patch that covers the position is one of this input
      intro patch hpatch hcovers
      obtain ⟨⟨i', reloc⟩, hx, rfl⟩ := List.mem_map.mp hpatch
      obtain ⟨inp', hi', hreloc⟩ := mem_relocations.mp hx
      obtain ⟨w, hw⟩ := hfields i' inp' hi' reloc hreloc
      rw [covers_relocPatch hw] at hcovers
      obtain ⟨hwidth, hoff, hend⟩ := hw
      obtain ⟨q, hq⟩ : ∃ q : ℕ, partStart 16 (inputs.map LinkerInput.textData) i + p =
          partStart 16 (inputs.map LinkerInput.textData) i' + q :=
        ⟨partStart 16 (inputs.map LinkerInput.textData) i + p -
          partStart 16 (inputs.map LinkerInput.textData) i', by omega⟩
      obtain ⟨rfl, rfl⟩ := parts_apart .text hi hi' hp (by
        show q < inp'.textData.length
        omega) hq
      obtain rfl : inp = inp' := Option.some.inj (hi.symm.trans hi')
      exact hfield ⟨reloc, hreloc, w, hwidth, by omega, by omega⟩

end Patches

/-- An emitted file, loaded. -/
theorem emitFor_loads {path : String} {symbols : List ResolvedSymbol} {image : Buf}
    (hos : targetOs = "linux" ∨ targetOs = "windows")
    (hemit : emitFor targetOs merged entryName symbols path = (result, some image))
    (hsize : merged.text.length + merged.data.length + merged.rodata.length < 2 ^ 31) :
    Loads (load targetOs image)
      (if targetOs = "linux" then elfBases merged.text.length merged.data.length
        else peBases merged.text.length merged.data.length)
      merged.text merged.data merged.rodata := by
  obtain rfl | rfl := hos
  · exact elf_loads hemit hsize
  · exact pe_loads hemit hsize

/-- The patches the linker makes. -/
theorem patchOf_eq_relocPatch (hsmall : Small inputs) (bases : Bases) {x : ℕ × LinkerReloc}
    (hx : x ∈ relocations inputs) (hknown : Known inputs x.2.symbolName) :
    patchOf (linkResolveSymbols inputs (linkMergeSections inputs) bases).1 bases
        (fun i => (linkMergeSections inputs).textOffsets.getD i 0) x =
      relocPatch inputs bases x := by
  rw [Known, ← firstDefinition_isSome_iff] at hknown
  rw [patchOf, linkFindSymbol_address hsmall, if_pos hknown]
  simp only [textOffsets_getD hsmall (lt_of_mem_relocations hx), Option.getD_some, relocPatch,
    relocSite, Section.start, Section.base, Section.align, Section.part, add_assoc]

/-- The image of a link that reports success. -/
theorem patched_of_success (hsmall : Small inputs) (hapart : FieldsApart inputs)
    (hfields : ∀ (i : ℕ) (inp : LinkerInput), inputs[i]? = some inp → ∀ reloc ∈ inp.relocations,
      ∃ w, HasField inp reloc w) {file : Option Buf}
    (hlink : linkExe inputs entryName outputPath targetOs = some (result, file))
    (hsuccess : result.success = true) :
    ∃ image, file = some image ∧
      Patched inputs (targetBases targetOs inputs) (load targetOs image) := by
  have hacc := (linkExe_success_iff hsmall entryName outputPath targetOs).mp
    ⟨result, file, hlink, hsuccess⟩
  rw [linkExe_eq hacc.nonempty hacc.target] at hlink
  obtain ⟨hentry, text, happly, hemit⟩ := linkWith_success hlink hsuccess
  have hmerged : linkMergeSections inputs = _ := linkMergeSections_eq inputs
  -- the text is the merged one with the patches
  have htext : text = splices (Section.text.merged inputs)
      ((relocations inputs).map (relocPatch inputs (targetBases targetOs inputs))) := by
    rw [linkApplyRelocations_eq, foldlM_applyOne_eq, List.map_congr_left
      fun x hx => patchOf_eq_relocPatch hsmall _ hx (hacc.names x hx)] at happly
    · rw [← (Prod.mk.inj (Option.some.inj happly)).1, hmerged]
      rfl
    · intro x hx
      exact (linkFindSymbol_isSome_iff hsmall _ _).mpr (hacc.names x hx)
    · rintro ⟨i, reloc⟩ hx
      obtain ⟨inp, hi, hreloc⟩ := mem_relocations.mp hx
      obtain ⟨w, hwidth, hoff, hend⟩ := hfields i inp hi reloc hreloc
      have hin := part_in_merged hi Section.text
      have hstart : (linkMergeSections inputs).textOffsets.getD i 0 =
          partStart 16 (inputs.map LinkerInput.textData) i :=
        textOffsets_getD hsmall (lt_of_mem_relocations hx)
      simp only [Section.align, Section.part, Section.merged] at hin
      refine ⟨w, hwidth, ?_, ?_⟩
      · rw [hstart]
        dsimp only
        omega
      · rw [hstart, hmerged]
        dsimp only
        omega
  have hlen : text.length = (Section.text.merged inputs).length := by
    rw [htext, length_splices (relocPatch_le hfields)]
  obtain ⟨image, himage⟩ := emitFor_success targetOs outputPath
    { linkMergeSections inputs with text := text } hentry
  have hfile : file = some image := by
    rw [hemit] at himage
    exact (Prod.mk.inj himage).2
  have hloads := emitFor_loads hacc.target himage (by
    simp only [hmerged, hlen]
    exact hsmall)
  have hbases : (if targetOs = "linux" then
      elfBases text.length (linkMergeSections inputs).data.length
        else peBases text.length (linkMergeSections inputs).data.length) =
      targetBases targetOs inputs := by
    rw [hlen, hmerged]
    rfl
  simp only [hbases] at hloads
  refine ⟨image, hfile, ?_, ?_⟩
  · intro i inp hi reloc hreloc w hw k hk
    have hin := part_in_merged hi Section.text
    obtain ⟨hwidth, hoff, hend⟩ := hw
    have hsite : relocSite inputs (targetBases targetOs inputs) i reloc + k =
        (targetBases targetOs inputs).text +
          ((partStart 16 (inputs.map LinkerInput.textData) i + reloc.offset).toNat + k : ℕ) := by
      simp only [relocSite, Section.start, Section.base, Section.align, Section.part]
      omega
    rw [hsite, hloads.text _ (by
      rw [hlen]
      simp only [Section.align, Section.part] at hin
      omega), htext]
    exact (getElem?_patched_text hfields hapart hi).1 reloc hreloc w ⟨hwidth, hoff, hend⟩ k hk
  · intro sec i inp hi p hp hfield
    have hin := part_in_merged hi sec
    have haddr : sec.start inputs (targetBases targetOs inputs) i + p =
        sec.base (targetBases targetOs inputs) +
          (partStart sec.align (inputs.map sec.part) i + p : ℕ) := by
      rw [Section.start]
      omega
    rw [haddr]
    cases sec with
    | text =>
      rw [Section.base, hloads.text _ (by rw [hlen]; omega), htext]
      exact (getElem?_patched_text hfields hapart hi).2 p hp fun h => hfield ⟨rfl, h⟩
    | data =>
      rw [Section.base, hloads.data _ (by rw [hmerged]; exact lt_of_lt_of_le (by omega) hin),
        hmerged]
      exact getElem?_mergeParts (getElem?_map_part hi .data) hp
    | rodata =>
      rw [Section.base, hloads.rodata _ (by rw [hmerged]; exact lt_of_lt_of_le (by omega) hin),
        hmerged]
      exact getElem?_mergeParts (getElem?_map_part hi .rodata) hp

/-! ## The condition -/

/-- Two targets leave the same bytes in a field iff their addresses are congruent. -/
theorem encode_fieldValue_eq_iff (reloc : LinkerReloc) (site : ℤ) {a b : ℤ} {w : ℕ} :
    encode w (fieldValue reloc site a) = encode w (fieldValue reloc site b) ↔
      a ≡ b [ZMOD 256 ^ w] := by
  rw [encode_eq_encode_iff, fieldValue, fieldValue]
  split_ifs
  · constructor
    · intro h
      simpa using (h.sub_right reloc.addend).add_right site
    · intro h
      exact (h.sub_right site).add_right reloc.addend
  · constructor
    · intro h
      simpa using h.sub_right reloc.addend
    · intro h
      exact h.add_right reloc.addend

/-- A patched image is linked if first definitions are what they should be. -/
theorem Patched.linked {image : ℤ → Option UInt8}
    (h : Patched inputs (targetBases targetOs inputs) image)
    (hfirst : Unambiguous inputs (targetBases targetOs inputs)) :
    Linked inputs (targetBases targetOs inputs) image where
  no_duplicate := hfirst.no_duplicate
  no_undefined := hfirst.no_undefined
  relocated i inp hi reloc hreloc := by
    obtain ⟨w, hw, hdenotes, hall⟩ := hfirst.first i inp hi reloc hreloc
    refine ⟨w, hw, hdenotes, fun target htarget => ?_⟩
    obtain ⟨a, ha, hfits, hcongr⟩ := hall target htarget
    refine ⟨a, ha, hfits, fun k hk => ?_⟩
    rw [h.field i inp hi reloc hreloc w hw k hk, (encode_fieldValue_eq_iff reloc _).mpr hcongr]
  unchanged := h.unchanged
  apart _ _ _ _ _ _ hi hi' _ hp _ hp' heq := starts_apart targetOs hi hi' hp hp' heq

/-- First definitions are what they should be if a patched image is linked. -/
theorem Patched.unambiguous {bases : Bases} {image : ℤ → Option UInt8}
    (h : Patched inputs bases image) (hlinked : Linked inputs bases image) :
    Unambiguous inputs bases where
  no_duplicate := hlinked.no_duplicate
  no_undefined := hlinked.no_undefined
  first i inp hi reloc hreloc := by
    obtain ⟨w, hw, hdenotes, hall⟩ := hlinked.relocated i inp hi reloc hreloc
    refine ⟨w, hw, hdenotes, fun target htarget => ?_⟩
    obtain ⟨a, ha, hfits, hbytes⟩ := hall target htarget
    refine ⟨a, ha, hfits, (encode_fieldValue_eq_iff reloc
      (relocSite inputs bases i reloc)).mp (List.ext_getElem? fun k => ?_)⟩
    by_cases hk : k < w
    · rw [← h.field i inp hi reloc hreloc w hw k hk]
      exact hbytes k hk
    · rw [List.getElem?_eq_none (by rw [length_encode]; omega),
        List.getElem?_eq_none (by rw [length_encode]; omega)]

/-- **When a link is right.** For sections below 2 GiB and relocations that do not overlap: what
`link_exe` links is linked iff it refuses the inputs or the first definition of every name lies
where what the name means does. -/
theorem linkExe_links_iff {inputs : List LinkerInput} (hsmall : Small inputs)
    (hapart : FieldsApart inputs) (entryName outputPath targetOs : String) :
    Links inputs entryName outputPath targetOs ↔
      (Accepted inputs entryName targetOs → Unambiguous inputs (targetBases targetOs inputs)) := by
  constructor
  · intro hlinks hacc
    obtain ⟨result, file, hlink, hsuccess⟩ :=
      (linkExe_success_iff hsmall entryName outputPath targetOs).mpr hacc
    obtain ⟨image, hfile, hlinked⟩ := hlinks result file hlink hsuccess
    have hfields : ∀ (i : ℕ) (inp : LinkerInput), inputs[i]? = some inp →
        ∀ reloc ∈ inp.relocations, ∃ w, HasField inp reloc w := by
      intro i inp hi reloc hreloc
      obtain ⟨w, hw, -⟩ := hlinked.relocated i inp hi reloc hreloc
      exact ⟨w, hw⟩
    obtain ⟨image', hfile', hpatched⟩ := patched_of_success hsmall hapart hfields hlink hsuccess
    obtain rfl : image = image' := Option.some.inj (hfile.symm.trans hfile')
    exact hpatched.unambiguous hlinked
  · intro hcond result file hlink hsuccess
    have hfirst := hcond ((linkExe_success_iff hsmall entryName outputPath targetOs).mp
      ⟨result, file, hlink, hsuccess⟩)
    have hfields : ∀ (i : ℕ) (inp : LinkerInput), inputs[i]? = some inp →
        ∀ reloc ∈ inp.relocations, ∃ w, HasField inp reloc w := by
      intro i inp hi reloc hreloc
      obtain ⟨w, hw, -⟩ := hfirst.first i inp hi reloc hreloc
      exact ⟨w, hw⟩
    obtain ⟨image, hfile, hpatched⟩ := patched_of_success hsmall hapart hfields hlink hsuccess
    exact ⟨image, hfile, hpatched.linked hfirst⟩

/-- `call main` inside `main`. -/
def caller : LinkerInput where
  name := "main"
  textData := [232, 0, 0, 0, 0]
  dataData := []
  rodataData := []
  symbols := [⟨"main", 0, lsecText, true, true, 5⟩]
  relocations := [⟨1, "main", lrelPc32, -4⟩]

theorem caller_accepted (hmem : caller ∈ inputs) (hall : ∀ inp ∈ inputs, inp = caller) :
    Accepted inputs "main" "linux" := by
  obtain ⟨j, hj⟩ := List.getElem?_of_mem hmem
  have hmain : Known inputs "main" :=
    Or.inl ⟨(j, ⟨"main", 0, lsecText, true, true, 5⟩),
      mem_definitions.mpr ⟨caller, hj, List.mem_singleton_self _, by decide⟩, rfl⟩
  have hreloc : ∀ x ∈ relocations inputs, x.2 = ⟨1, "main", lrelPc32, -4⟩ := by
    intro x hx
    obtain ⟨inp, hi, hr⟩ := mem_relocations.mp hx
    rw [hall inp (List.mem_of_getElem? hi)] at hr
    exact List.mem_singleton.mp hr
  refine ⟨List.ne_nil_of_mem hmem, Or.inl rfl, hmain, ?_, ?_⟩
  · intro x hx
    rw [hreloc x hx]
    exact hmain
  · rintro x hx ⟨w, -, hneg, -⟩
    rw [hreloc x hx] at hneg
    dsimp only at hneg
    omega

/-- A program of one input is linked. -/
theorem linkExe_links_iff_caller : Small [caller] ∧ FieldsApart [caller] ∧
    Accepted [caller] "main" "linux" ∧ Links [caller] "main" "a.out" "linux" := by
  have hsmall : Small [caller] := by decide
  have hapart : FieldsApart [caller] := by
    intro inp hinp
    rw [List.mem_singleton.mp hinp]
    exact List.pairwise_singleton _ _
  have hinput : ∀ i inp, [caller][i]? = some inp → i = 0 ∧ inp = caller := by
    intro i inp hi
    cases i with
    | zero => exact ⟨rfl, (Option.some.inj hi).symm⟩
    | succ i => simp at hi
  have hsymbol : ∀ j sym, DefinedIn [caller] j sym →
      j = 0 ∧ sym = ⟨"main", 0, lsecText, true, true, 5⟩ := by
    rintro j sym ⟨inp, hj, hsym, -⟩
    obtain ⟨rfl, rfl⟩ := hinput j inp hj
    exact ⟨rfl, List.mem_singleton.mp hsym⟩
  have hmain : GlobalDefinition [caller] 0 "main" ⟨"main", 0, lsecText, true, true, 5⟩ :=
    ⟨⟨caller, rfl, List.mem_singleton_self _, by decide⟩, rfl, rfl⟩
  have hnone : ∀ i name s, ¬ OwnLocal [caller] i name s := by
    rintro i name s ⟨hs, hlocal, -⟩
    obtain ⟨-, rfl⟩ := hsymbol i s hs
    simp at hlocal
  have hfirst : Unambiguous [caller] (targetBases "linux" [caller]) := by
    refine ⟨by decide, ?_, ?_⟩
    · intro i inp hi sym hsym hundef
      obtain ⟨rfl, rfl⟩ := hinput i inp hi
      rw [List.mem_singleton.mp hsym] at hundef
      exact absurd hundef (by decide)
    · intro i inp hi reloc hreloc
      obtain ⟨rfl, rfl⟩ := hinput i inp hi
      obtain rfl := List.mem_singleton.mp hreloc
      refine ⟨4, ⟨rfl, by decide, by decide⟩, ⟨_, .global (hnone 0 _) hmain⟩, ?_⟩
      rintro target (hown | ⟨-, hglobal⟩ | ⟨-, hno, -⟩)
      · exact absurd hown (hnone 0 _ _)
      · obtain ⟨rfl, rfl⟩ := hsymbol _ _ hglobal.1
        exact ⟨4194480, by decide, by decide, by decide⟩
      · exact absurd hmain (hno 0 _)
  have hacc := caller_accepted (List.mem_singleton_self caller) fun _ => List.mem_singleton.mp
  exact ⟨hsmall, hapart, hacc,
    (linkExe_links_iff hsmall hapart "main" "a.out" "linux").mpr fun _ => hfirst⟩

/-- Two inputs that both define `main` are linked without an error. -/
theorem duplicate_is_linked : ¬ Links [caller, caller] "main" "a.out" "linux" := by
  intro hlinks
  have hsmall : Small [caller, caller] := by decide
  have hacc : Accepted [caller, caller] "main" "linux" :=
    caller_accepted List.mem_cons_self (by simp)
  obtain ⟨result, file, hlink, hsuccess⟩ :=
    (linkExe_success_iff hsmall "main" "a.out" "linux").mpr hacc
  obtain ⟨image, -, hlinked⟩ := hlinks result file hlink hsuccess
  exact absurd hlinked.no_duplicate (by decide)

end Kryos.SelfHost.Linker

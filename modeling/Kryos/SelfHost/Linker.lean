import Kryos.Lib.Bytes
import Mathlib.Data.Int.Notation

/-!
# The static linker of the self-hosted compiler

`link_exe` merges the sections of its inputs, builds one table of symbols, patches the relocations
into the merged `.text` and writes an ELF or a PE executable. The four passes are modelled one by
one, on byte lists, with the executable down to its last header byte.

A buffer handle is the list of its bytes. What the passes print is left out but for the errors of
the symbol table, which are all that becomes of them.
-/

namespace Kryos.SelfHost.Linker

open LittleEndian

abbrev Buf := List UInt8

/-! ## Section and relocation constants -/

def lsecUndef : ℤ := 0
def lsecText : ℤ := 1
def lsecData : ℤ := 2
def lsecRodata : ℤ := 3
def lsecBss : ℤ := 4

def lrelPc32 : ℤ := 1
def lrelAbs64 : ℤ := 2
def lrelAbs32 : ℤ := 3

def elfTextBase : ℤ := 4194304
def elfPageSize : ℤ := 4096
def ptLoad : ℤ := 1
def pfX : ℤ := 1
def pfW : ℤ := 2
def pfR : ℤ := 4
def etExec : ℤ := 2
def emX8664 : ℤ := 62
def elfEhdrSize : ℤ := 64
def elfPhdrSize : ℤ := 56

def peImageBase : ℤ := 5368709120
def peSectionAlign : ℤ := 4096
def peFileAlign : ℤ := 512
def peTextRva : ℤ := 4096
def peDosSize : ℤ := 64
def peSigSize : ℤ := 4
def peCoffSize : ℤ := 20
def peOptSize : ℤ := 240
def peSecthdrSize : ℤ := 40

/-! ## Data structures -/

structure LinkerSymbol where
  name : String
  offset : ℤ
  sec : ℤ
  isGlobal : Bool
  isFunc : Bool
  size : ℤ
  deriving DecidableEq, Repr

structure LinkerReloc where
  offset : ℤ
  symbolName : String
  relType : ℤ
  addend : ℤ
  deriving DecidableEq, Repr

structure LinkerInput where
  name : String
  textData : Buf
  dataData : Buf
  rodataData : Buf
  symbols : List LinkerSymbol
  relocations : List LinkerReloc
  deriving DecidableEq, Repr

/-- The merged sections, and for every input where its part of each section starts. -/
structure LinkerMerged where
  text : Buf
  data : Buf
  rodata : Buf
  textOffsets : List ℤ
  dataOffsets : List ℤ
  rodataOffsets : List ℤ
  deriving DecidableEq, Repr

structure ResolvedSymbol where
  name : String
  address : ℤ
  sec : ℤ
  isGlobal : Bool
  isFunc : Bool
  size : ℤ
  deriving DecidableEq, Repr

structure LinkerResult where
  success : Bool
  errorMsg : String
  outputPath : String
  deriving DecidableEq, Repr

/-! ## Buffers -/

/-- The value of a 64-bit integer stored as an `i32`. -/
def i32 (v : ℤ) : ℤ :=
  Int.bmod v (2 ^ 32)

/-- Division truncates in the source language. -/
def linkAlignUp (val align : ℤ) : ℤ :=
  if align ≤ 0 then val
  else
    let remainder := val - val.tdiv align * align
    if remainder = 0 then val else val + align - remainder

def linkWriteU16Le (val : ℤ) : Buf :=
  [byte (val - val.tdiv 256 * 256), byte (val.tdiv 256)]

def linkWriteU32Le (val : ℤ) : Buf :=
  encode 4 val

def linkWriteU64Le (val : ℤ) : Buf :=
  encode 8 val

def bufWriteZeros (count : ℤ) : Buf :=
  List.replicate count.toNat 0

def linkPadToAlignment (buf : Buf) (align : ℤ) : Buf :=
  buf ++ bufWriteZeros (linkAlignUp buf.length align - buf.length)

/-- `buf_patch_i32_le` and `buf_patch_i64_le`: a patch that does not lie inside the buffer does
nothing. Just before its start the end of the patch wraps around, and the runtime aborts on the
slice. -/
def bufPatch (buf : Buf) (offset : ℤ) (bytes : Buf) : Option Buf :=
  if 0 ≤ offset then
    if offset + bytes.length ≤ buf.length then some (splice buf offset.toNat bytes) else some buf
  else if 0 ≤ offset + bytes.length ∧ offset + bytes.length ≤ buf.length then none
  else some buf

/-! ## Section merging -/

def mergeInput (m : LinkerMerged) (inp : LinkerInput) : LinkerMerged where
  text := linkPadToAlignment (m.text ++ inp.textData) 16
  data := linkPadToAlignment (m.data ++ inp.dataData) 8
  rodata := linkPadToAlignment (m.rodata ++ inp.rodataData) 8
  textOffsets := m.textOffsets ++ [i32 m.text.length]
  dataOffsets := m.dataOffsets ++ [i32 m.data.length]
  rodataOffsets := m.rodataOffsets ++ [i32 m.rodata.length]

def linkMergeSections (inputs : List LinkerInput) : LinkerMerged :=
  inputs.foldl mergeInput ⟨[], [], [], [], [], []⟩

/-! ## Symbol resolution -/

/-- The addresses at which the merged sections start. -/
structure Bases where
  text : ℤ
  data : ℤ
  rodata : ℤ
  deriving DecidableEq, Repr

/-- The entry `link_find_symbol` finds the index of. -/
def linkFindSymbol (symbols : List ResolvedSymbol) (name : String) : Option ResolvedSymbol :=
  symbols.find? (·.name = name)

/-- The address of a symbol of input `i`; a section without contents has none. -/
def symbolAddress (merged : LinkerMerged) (bases : Bases) (i : ℕ) (sym : LinkerSymbol) : ℤ :=
  if sym.sec = lsecText then bases.text + merged.textOffsets.getD i 0 + sym.offset
  else if sym.sec = lsecData then bases.data + merged.dataOffsets.getD i 0 + sym.offset
  else if sym.sec = lsecRodata then bases.rodata + merged.rodataOffsets.getD i 0 + sym.offset
  else 0

/-- Enter one symbol of input `i`. A global whose name is in the table already, be it of a local
symbol, is reported and left out. -/
def resolveSymbol (merged : LinkerMerged) (bases : Bases) (i : ℕ)
    (acc : List ResolvedSymbol × List String) (sym : LinkerSymbol) :
    List ResolvedSymbol × List String :=
  if sym.sec = lsecUndef then acc
  else if sym.isGlobal ∧ (linkFindSymbol acc.1 sym.name).isSome then
    (acc.1, acc.2 ++ ["linker: duplicate symbol: " ++ sym.name])
  else
    (acc.1 ++ [⟨sym.name, symbolAddress merged bases i sym, sym.sec, sym.isGlobal, sym.isFunc,
      sym.size⟩], acc.2)

/-- The symbols no input defines. -/
def syntheticSymbols (bases : Bases) : List ResolvedSymbol :=
  [⟨"__text_base", bases.text, lsecText, true, false, 0⟩,
    ⟨"__data_base", bases.data, lsecData, true, false, 0⟩,
    ⟨"__rodata_base", bases.rodata, lsecRodata, true, false, 0⟩]

def undefinedErrors (table : List ResolvedSymbol) (inp : LinkerInput) : List String :=
  (inp.symbols.filter fun sym =>
    sym.sec = lsecUndef ∧ (linkFindSymbol table sym.name).isNone).map
      fun sym => "linker: undefined symbol: " ++ sym.name

/-- The table, and the errors that are printed. -/
def linkResolveSymbols (inputs : List LinkerInput) (merged : LinkerMerged) (bases : Bases) :
    List ResolvedSymbol × List String :=
  let defined := inputs.zipIdx.foldl
    (fun acc (inp, i) => inp.symbols.foldl (resolveSymbol merged bases i) acc) ([], [])
  let table := defined.1 ++ syntheticSymbols bases
  (table, defined.2 ++ inputs.flatMap (undefinedErrors table))

/-! ## Relocation patching -/

/-- Patch one relocation of an input whose `.text` starts at `textStart`. The flag records a
relocation whose symbol is not in the table. -/
def linkApplyRelocation (symbols : List ResolvedSymbol) (bases : Bases) (textStart : ℤ)
    (st : Buf × Bool) (reloc : LinkerReloc) : Option (Buf × Bool) :=
  match linkFindSymbol symbols reloc.symbolName with
  | none => some (st.1, true)
  | some sym =>
    let patchSite := textStart + reloc.offset
    if reloc.relType = lrelPc32 then
      let value := sym.address - (bases.text + patchSite) + reloc.addend
      (bufPatch st.1 patchSite (encode 4 value)).map (·, st.2)
    else if reloc.relType = lrelAbs64 then
      (bufPatch st.1 patchSite (encode 8 (sym.address + reloc.addend))).map (·, st.2)
    else if reloc.relType = lrelAbs32 then
      (bufPatch st.1 patchSite (encode 4 (sym.address + reloc.addend))).map (·, st.2)
    else some st

/-- The patched `.text`, and whether there was an error. -/
def linkApplyRelocations (merged : LinkerMerged) (inputs : List LinkerInput)
    (symbols : List ResolvedSymbol) (bases : Bases) : Option (Buf × Bool) :=
  inputs.zipIdx.foldlM
    (fun st (inp, i) =>
      inp.relocations.foldlM (linkApplyRelocation symbols bases (merged.textOffsets.getD i 0)) st)
    (merged.text, false)

/-! ## The ELF executable -/

/-- The fields of the ELF header and the two program headers. -/
def elfHeaders (entryAddr textSize dataSize rodataSize : ℤ) : List Buf :=
  let headerSize := elfEhdrSize + 2 * elfPhdrSize
  let textFileOffset := headerSize
  let textEnd := textFileOffset + textSize
  let dataFileOffset := linkAlignUp textEnd elfPageSize
  let textVaddr := elfTextBase + textFileOffset
  let dataVaddr := linkAlignUp (elfTextBase + textEnd) elfPageSize
  let combinedDataSize := dataSize + rodataSize
  [ [127, 69, 76, 70, 2, 1, 1, 0], bufWriteZeros 8,
    linkWriteU16Le etExec, linkWriteU16Le emX8664, linkWriteU32Le 1,
    linkWriteU64Le entryAddr, linkWriteU64Le elfEhdrSize, linkWriteU64Le 0,
    linkWriteU32Le 0, linkWriteU16Le elfEhdrSize, linkWriteU16Le elfPhdrSize,
    linkWriteU16Le 2, linkWriteU16Le 0, linkWriteU16Le 0, linkWriteU16Le 0,
    -- .text, readable and executable
    linkWriteU32Le ptLoad, linkWriteU32Le (pfR + pfX), linkWriteU64Le textFileOffset,
    linkWriteU64Le textVaddr, linkWriteU64Le textVaddr, linkWriteU64Le textSize,
    linkWriteU64Le textSize, linkWriteU64Le elfPageSize,
    -- .data and .rodata, readable and writable
    linkWriteU32Le ptLoad, linkWriteU32Le (pfR + pfW), linkWriteU64Le dataFileOffset,
    linkWriteU64Le dataVaddr, linkWriteU64Le dataVaddr, linkWriteU64Le combinedDataSize,
    linkWriteU64Le combinedDataSize, linkWriteU64Le elfPageSize]

def entryNotFound (entryName path : String) : LinkerResult :=
  ⟨false, "linker: entry point not found: " ++ entryName, path⟩

/-- The result, and the bytes written to the file. -/
def linkEmitElfExe (merged : LinkerMerged) (entryName : String) (symbols : List ResolvedSymbol)
    (path : String) : LinkerResult × Option Buf :=
  match linkFindSymbol symbols entryName with
  | none => (entryNotFound entryName path, none)
  | some entry =>
    let headers :=
      elfHeaders entry.address merged.text.length merged.data.length merged.rodata.length
    let out := headers.flatten
    let out := linkPadToAlignment (out ++ merged.text) elfPageSize
    (⟨true, "", path⟩, some (out ++ merged.data ++ merged.rodata))

/-! ## The PE executable -/

/-- A section name, padded to eight bytes. -/
def peWriteSectionName (name : String) : Buf :=
  let bytes := name.toList.flatMap String.utf8EncodeChar
  bytes ++ bufWriteZeros (8 - bytes.length)

/-- The fields of one section header. -/
def peSectionHeader (name : String) (size rva fileSize fileOff characteristics : ℤ) : List Buf :=
  [ peWriteSectionName name, linkWriteU32Le size, linkWriteU32Le rva, linkWriteU32Le fileSize,
    linkWriteU32Le fileOff, linkWriteU32Le 0, linkWriteU32Le 0, linkWriteU16Le 0,
    linkWriteU16Le 0, linkWriteU32Le characteristics]

/-- The fields of the DOS header, the PE signature, the COFF header, the optional header and the
section headers. -/
def peHeaders (entryAddr textSize dataSize rodataSize : ℤ) : List Buf :=
  let entryRva := entryAddr - peImageBase
  let headersRaw := peDosSize + peSigSize + peCoffSize + peOptSize + 3 * peSecthdrSize
  let headersSize := linkAlignUp headersRaw peFileAlign
  let textRva := peTextRva
  let dataRva := textRva + linkAlignUp textSize peSectionAlign
  let rdataRva := dataRva + linkAlignUp dataSize peSectionAlign
  let textFileOff := headersSize
  let textFileSize := linkAlignUp textSize peFileAlign
  let dataFileOff := textFileOff + textFileSize
  let dataFileSize := linkAlignUp dataSize peFileAlign
  let rdataFileOff := dataFileOff + dataFileSize
  let rdataFileSize := linkAlignUp rodataSize peFileAlign
  let imageSize := rdataRva + linkAlignUp rodataSize peSectionAlign
  [ [77, 90], bufWriteZeros 58, linkWriteU32Le peDosSize,
    [80, 69, 0, 0],
    -- COFF header
    linkWriteU16Le 34404, linkWriteU16Le 3, linkWriteU32Le 0, linkWriteU32Le 0,
    linkWriteU32Le 0, linkWriteU16Le peOptSize, linkWriteU16Le 34,
    -- optional header
    linkWriteU16Le 523, [1], [0], linkWriteU32Le textFileSize,
    linkWriteU32Le (dataFileSize + rdataFileSize), linkWriteU32Le 0,
    linkWriteU32Le entryRva, linkWriteU32Le textRva, linkWriteU64Le peImageBase,
    linkWriteU32Le peSectionAlign, linkWriteU32Le peFileAlign,
    linkWriteU16Le 6, linkWriteU16Le 0, linkWriteU16Le 0, linkWriteU16Le 0,
    linkWriteU16Le 6, linkWriteU16Le 0, linkWriteU32Le 0, linkWriteU32Le imageSize,
    linkWriteU32Le headersSize, linkWriteU32Le 0, linkWriteU16Le 3, linkWriteU16Le 33088,
    linkWriteU64Le 1048576, linkWriteU64Le 4096, linkWriteU64Le 1048576,
    linkWriteU64Le 4096, linkWriteU32Le 0, linkWriteU32Le 16, bufWriteZeros 128] ++
    peSectionHeader ".text" textSize textRva textFileSize textFileOff 1610612768 ++
    peSectionHeader ".data" dataSize dataRva dataFileSize dataFileOff 3221225536 ++
    peSectionHeader ".rdata" rodataSize rdataRva rdataFileSize rdataFileOff 1073741888

def linkEmitPeExe (merged : LinkerMerged) (entryName : String) (symbols : List ResolvedSymbol)
    (path : String) : LinkerResult × Option Buf :=
  match linkFindSymbol symbols entryName with
  | none => (entryNotFound entryName path, none)
  | some entry =>
    let headers :=
      peHeaders entry.address merged.text.length merged.data.length merged.rodata.length
    let out := linkPadToAlignment headers.flatten peFileAlign
    let out := linkPadToAlignment (out ++ merged.text) peFileAlign
    let out := linkPadToAlignment (out ++ merged.data) peFileAlign
    (⟨true, "", path⟩, some (linkPadToAlignment (out ++ merged.rodata) peFileAlign))

/-! ## The whole link -/

/-- The base addresses of the ELF layout. -/
def elfBases (textSize dataSize : ℤ) : Bases :=
  let textBase := elfTextBase + (elfEhdrSize + 2 * elfPhdrSize)
  let dataBase := linkAlignUp (textBase + textSize) elfPageSize
  ⟨textBase, dataBase, dataBase + dataSize⟩

/-- The base addresses of the PE layout. -/
def peBases (textSize dataSize : ℤ) : Bases :=
  let textRva := peTextRva
  let dataRva := textRva + linkAlignUp textSize peSectionAlign
  let rdataRva := dataRva + linkAlignUp dataSize peSectionAlign
  ⟨peImageBase + textRva, peImageBase + dataRva, peImageBase + rdataRva⟩

/-- The merged, resolved and relocated program, handed to the emitter of the target. -/
def linkWith (emit : LinkerMerged → String → List ResolvedSymbol → String →
      LinkerResult × Option Buf)
    (inputs : List LinkerInput) (merged : LinkerMerged) (bases : Bases)
    (entryName outputPath : String) : Option (LinkerResult × Option Buf) :=
  let symbols := (linkResolveSymbols inputs merged bases).1
  if symbols.length = 0 then some (⟨false, "linker: no symbols found", outputPath⟩, none)
  else
    match linkFindSymbol symbols entryName with
    | none => some (entryNotFound entryName outputPath, none)
    | some _ =>
      match linkApplyRelocations merged inputs symbols bases with
      | none => none
      | some (_, true) =>
        some (⟨false, "linker: relocation errors occurred", outputPath⟩, none)
      | some (text, false) => some (emit { merged with text := text } entryName symbols outputPath)

/-- `link_exe`: its result and the file it writes; `none` if the runtime aborts. -/
def linkExe (inputs : List LinkerInput) (entryName outputPath targetOs : String) :
    Option (LinkerResult × Option Buf) :=
  if inputs.length = 0 then some (⟨false, "linker: no input files", outputPath⟩, none)
  else
    let merged := linkMergeSections inputs
    if targetOs = "linux" then
      linkWith linkEmitElfExe inputs merged (elfBases merged.text.length merged.data.length)
        entryName outputPath
    else if targetOs = "windows" then
      linkWith linkEmitPeExe inputs merged (peBases merged.text.length merged.data.length)
        entryName outputPath
    else some (⟨false, "linker: unsupported target OS: " ++ targetOs, outputPath⟩, none)

end Kryos.SelfHost.Linker

import Kryos.SelfHost.Linker
import Mathlib.Algebra.BigOperators.Group.List.Basic

/-!
# The executables of the linker, loaded

What the loader of the target system makes of an executable: it reads the program headers of an ELF
file, or the section headers of a PE file, and maps the parts of the file they name. An executable
the linker writes maps the three merged sections at the base addresses the linker has computed with.

## Main results

* `elf_loads`, `pe_loads` — the sections are where the linker believes them to be
-/

namespace Kryos.SelfHost.Linker

open LittleEndian

/-! ## Loaders -/

/-- A part of the file and the address it is mapped at. -/
structure Segment where
  offset : ℕ
  vaddr : ℕ
  size : ℕ
  deriving DecidableEq, Repr

/-- The `PT_LOAD` program headers of an ELF64 file. -/
def elfSegments (file : Buf) : List Segment :=
  let phoff := read file 32 8
  let phentsize := read file 54 2
  let phnum := read file 56 2
  (List.range phnum).filterMap fun k =>
    let header := phoff + k * phentsize
    if read file header 4 = 1 then
      some ⟨read file (header + 8) 8, read file (header + 16) 8, read file (header + 32) 8⟩
    else none

/-- The section headers of a PE32+ file; the part of a section that is not in the file is left
out. -/
def peSegments (file : Buf) : List Segment :=
  let pe := read file 60 4
  let optional := pe + 24
  let imageBase := read file (optional + 24) 8
  let table := optional + read file (pe + 20) 2
  (List.range (read file (pe + 6) 2)).map fun k =>
    let header := table + k * 40
    ⟨read file (header + 20) 4, imageBase + read file (header + 12) 4,
      min (read file (header + 8) 4) (read file (header + 16) 4)⟩

/-- The byte at an address. -/
def mapped (file : Buf) (segments : List Segment) (a : ℤ) : Option UInt8 :=
  (segments.find? fun g => g.vaddr ≤ a ∧ a < g.vaddr + g.size).bind
    fun g => file[(g.offset + (a - g.vaddr)).toNat]?

/-- The image of a file the linker has written for a target. -/
def load (targetOs : String) (file : Buf) : ℤ → Option UInt8 :=
  mapped file (if targetOs = "linux" then elfSegments file else peSegments file)

/-- The merged sections are found at the base addresses. -/
structure Loads (image : ℤ → Option UInt8) (bases : Bases) (text data rodata : Buf) : Prop where
  text : ∀ p < text.length, image (bases.text + p) = text[p]?
  data : ∀ p < data.length, image (bases.data + p) = data[p]?
  rodata : ∀ p < rodata.length, image (bases.rodata + p) = rodata[p]?

/-! ## Alignment -/

theorem linkAlignUp_spec {v a : ℤ} (hv : 0 ≤ v) (ha : 0 < a) :
    v ≤ linkAlignUp v a ∧ linkAlignUp v a < v + a ∧ linkAlignUp v a % a = 0 := by
  have hmod := Int.emod_add_mul_ediv v a
  have hnonneg := Int.emod_nonneg v ha.ne'
  have hlt := Int.emod_lt_of_pos v ha
  have hrem : v - v.tdiv a * a = v % a := by
    rw [Int.tdiv_eq_ediv_of_nonneg hv, mul_comm]
    omega
  simp only [linkAlignUp, not_le.mpr ha, if_false, hrem]
  split_ifs with hzero
  · exact ⟨le_rfl, by omega, hzero⟩
  · refine ⟨by omega, by omega, ?_⟩
    rw [show v + a - v % a = a * (v / a + 1) by rw [mul_add]; omega]
    exact Int.mul_emod_right a _

theorem length_linkPadToAlignment (buf : Buf) {a : ℤ} (ha : 0 < a) :
    ((linkPadToAlignment buf a).length : ℤ) = linkAlignUp buf.length a := by
  have hle := (linkAlignUp_spec (v := buf.length) (Int.natCast_nonneg _) ha).1
  simp only [linkPadToAlignment, bufWriteZeros, List.length_append, List.length_replicate]
  omega

theorem getElem?_linkPadToAlignment (buf : Buf) (a : ℤ) {p : ℕ} (hp : p < buf.length) :
    (linkPadToAlignment buf a)[p]? = buf[p]? := by
  rw [linkPadToAlignment, List.getElem?_append_left hp]

/-- What was written last, before the padding. -/
theorem getElem?_pad_append (b x : Buf) (a : ℤ) {p : ℕ} (hp : p < x.length) :
    (linkPadToAlignment (b ++ x) a)[b.length + p]? = x[p]? := by
  rw [getElem?_linkPadToAlignment _ _ (by rw [List.length_append]; omega),
    List.getElem?_append_right (by omega), Nat.add_sub_cancel_left]

/-- What was written before stays. -/
theorem getElem?_pad_append_left (b x : Buf) (a : ℤ) {k : ℕ} (hk : k < b.length) :
    (linkPadToAlignment (b ++ x) a)[k]? = b[k]? := by
  rw [getElem?_linkPadToAlignment _ _ (by rw [List.length_append]; omega),
    List.getElem?_append_left hk]

/-! ## Addresses in segments -/

/-- An address in the first segment. -/
theorem mapped_cons_of_mem {file : Buf} {g : Segment} {segments : List Segment} {a : ℤ} {p : ℕ}
    (ha : a = g.vaddr + p) (hp : p < g.size) :
    mapped file (g :: segments) a = file[g.offset + p]? := by
  have hin : (g.vaddr : ℤ) ≤ a ∧ a < g.vaddr + g.size := by omega
  rw [mapped, List.find?_cons_of_pos (by simpa using hin), Option.bind_some]
  congr 1
  omega

/-- An address in a later segment. -/
theorem mapped_cons_of_le {file : Buf} {g : Segment} {segments : List Segment} {a : ℤ}
    (ha : g.vaddr + g.size ≤ a) : mapped file (g :: segments) a = mapped file segments a := by
  have hout : ¬ ((g.vaddr : ℤ) ≤ a ∧ a < g.vaddr + g.size) := by omega
  rw [mapped, List.find?_cons_of_neg (by simpa using hout), mapped]

/-! ## The ELF file -/

@[simp] theorem length_linkWriteU16Le (v : ℤ) : (linkWriteU16Le v).length = 2 := rfl

@[simp] theorem length_linkWriteU32Le (v : ℤ) : (linkWriteU32Le v).length = 4 := rfl

@[simp] theorem length_linkWriteU64Le (v : ℤ) : (linkWriteU64Le v).length = 8 := rfl

@[simp] theorem length_bufWriteZeros (n : ℤ) : (bufWriteZeros n).length = n.toNat :=
  List.length_replicate

theorem decode_linkWriteU32Le {v : ℤ} (h₀ : 0 ≤ v) (h : v < 2 ^ 32) :
    decode (linkWriteU32Le v) = v.toNat := by
  have := decode_encode_of_lt (n := 4) h₀ (by omega)
  rw [linkWriteU32Le]
  omega

theorem decode_linkWriteU64Le {v : ℤ} (h₀ : 0 ≤ v) (h : v < 2 ^ 64) :
    decode (linkWriteU64Le v) = v.toNat := by
  have := decode_encode_of_lt (n := 8) h₀ (by omega)
  rw [linkWriteU64Le]
  omega

/-- The widths of the fields of the ELF headers. -/
def elfWidths : List ℕ :=
  [8, 8, 2, 2, 4, 8, 8, 8, 4, 2, 2, 2, 2, 2, 2, 4, 4, 8, 8, 8, 8, 8, 8, 4, 4, 8, 8, 8, 8, 8, 8]

theorem elfHeaders_widths (entry t d r : ℤ) :
    (elfHeaders entry t d r).map List.length = elfWidths := by
  simp [elfHeaders, elfWidths]

/-- A field of the headers. -/
theorem read_elfHeaders {entry t d r : ℤ} {f rest : Buf} {k off n : ℕ}
    (hk : (elfHeaders entry t d r)[k]? = some f) (hn : f.length = n)
    (hoff : (elfWidths.take k).sum = off) :
    read ((elfHeaders entry t d r).flatten ++ rest) off n = decode f :=
  read_flatten (elfHeaders entry t d r) rest hk (by rw [elfHeaders_widths, hoff]) hn

/-- The two segments of an ELF file of the linker. -/
theorem elfSegments_eq (entry : ℤ) (t d r : ℕ) (rest : Buf) (hsize : t + d + r < 2 ^ 31) :
    elfSegments ((elfHeaders entry t d r).flatten ++ rest) =
      [⟨176, 4194480, t⟩,
        ⟨(linkAlignUp (176 + t) 4096).toNat, (linkAlignUp (4194480 + t) 4096).toNat, d + r⟩] := by
  set file := (elfHeaders entry t d r).flatten ++ rest
  have hoff := linkAlignUp_spec (v := 176 + t) (a := 4096) (by omega) (by decide)
  have haddr := linkAlignUp_spec (v := 4194480 + t) (a := 4096) (by omega) (by decide)
  have hphoff : read file 32 8 = 64 :=
    read_elfHeaders (f := linkWriteU64Le 64) (k := 6) rfl rfl rfl
  have hphentsize : read file 54 2 = 56 :=
    read_elfHeaders (f := linkWriteU16Le 56) (k := 10) rfl rfl rfl
  have hphnum : read file 56 2 = 2 :=
    read_elfHeaders (f := linkWriteU16Le 2) (k := 11) rfl rfl rfl
  have htype₀ : read file 64 4 = 1 :=
    read_elfHeaders (f := linkWriteU32Le 1) (k := 15) rfl rfl rfl
  have hoff₀ : read file 72 8 = 176 :=
    read_elfHeaders (f := linkWriteU64Le 176) (k := 17) rfl rfl rfl
  have haddr₀ : read file 80 8 = 4194480 :=
    read_elfHeaders (f := linkWriteU64Le 4194480) (k := 18) rfl rfl rfl
  have hsize₀ : read file 96 8 = t := by
    refine (read_elfHeaders (f := linkWriteU64Le t) (k := 20) rfl rfl rfl).trans ?_
    rw [decode_linkWriteU64Le (by omega) (by omega), Int.toNat_natCast]
  have htype₁ : read file 120 4 = 1 :=
    read_elfHeaders (f := linkWriteU32Le 1) (k := 23) rfl rfl rfl
  have hoff₁ : read file 128 8 =
      (linkAlignUp (176 + t) 4096).toNat :=
    (read_elfHeaders (f := linkWriteU64Le (linkAlignUp (176 + t) 4096)) (k := 25) rfl rfl
      rfl).trans (decode_linkWriteU64Le (by omega) (by omega))
  have hvaddr : elfTextBase + (elfEhdrSize + 2 * elfPhdrSize + t) = 4194480 + t := by
    simp only [elfTextBase, elfEhdrSize, elfPhdrSize]
    omega
  have haddr₁ : read file 136 8 =
      (linkAlignUp (4194480 + t) 4096).toNat := by
    refine (read_elfHeaders (f := linkWriteU64Le (linkAlignUp (elfTextBase +
        (elfEhdrSize + 2 * elfPhdrSize + t)) 4096)) (k := 26) rfl rfl rfl).trans ?_
    rw [hvaddr]
    exact decode_linkWriteU64Le (by omega) (by omega)
  have hsize₁ : read file 152 8 = d + r := by
    refine (read_elfHeaders (f := linkWriteU64Le (d + r)) (k := 28) rfl rfl rfl).trans ?_
    rw [decode_linkWriteU64Le (by omega) (by omega)]
    omega
  simp only [elfSegments, hphoff, hphentsize, hphnum]
  simp [List.range_succ, htype₀, hoff₀, haddr₀, hsize₀, htype₁, hoff₁, haddr₁, hsize₁]

theorem length_elfHeaders (entry t d r : ℤ) : (elfHeaders entry t d r).flatten.length = 176 := by
  rw [List.length_flatten, elfHeaders_widths]
  rfl

/-- **ELF.** The image of the file maps the merged sections at the base addresses. -/
theorem elf_loads {merged : LinkerMerged} {entryName path : String}
    {symbols : List ResolvedSymbol} {result : LinkerResult} {file : Buf}
    (hemit : linkEmitElfExe merged entryName symbols path = (result, some file))
    (hsize : merged.text.length + merged.data.length + merged.rodata.length < 2 ^ 31) :
    Loads (load "linux" file) (elfBases merged.text.length merged.data.length)
      merged.text merged.data merged.rodata := by
  obtain ⟨entry, hfile⟩ : ∃ entry : ResolvedSymbol, linkPadToAlignment
      ((elfHeaders entry.address merged.text.length merged.data.length
        merged.rodata.length).flatten ++ merged.text) elfPageSize ++ merged.data ++ merged.rodata =
      file := by
    rw [linkEmitElfExe] at hemit
    split at hemit
    · simp at hemit
    · exact ⟨_, Option.some.inj (Prod.mk.inj hemit).2⟩
  have hsegments := elfSegments_eq entry.address merged.text.length merged.data.length
    merged.rodata.length (merged.text ++ bufWriteZeros (linkAlignUp (List.length
      ((elfHeaders entry.address merged.text.length merged.data.length
        merged.rodata.length).flatten ++ merged.text)) elfPageSize - List.length
      ((elfHeaders entry.address merged.text.length merged.data.length
        merged.rodata.length).flatten ++ merged.text)) ++ merged.data ++ merged.rodata) hsize
  simp only [linkPadToAlignment, List.append_assoc] at hfile hsegments
  rw [hfile] at hsegments
  have hlen := length_elfHeaders entry.address merged.text.length merged.data.length
    merged.rodata.length
  have hoff := linkAlignUp_spec (v := 176 + merged.text.length) (a := 4096) (by omega) (by decide)
  have haddr := linkAlignUp_spec (v := 4194480 + merged.text.length) (a := 4096) (by omega)
    (by decide)
  have hzeros : (List.length ((elfHeaders entry.address merged.text.length merged.data.length
      merged.rodata.length).flatten ++ merged.text) : ℤ) = 176 + merged.text.length := by
    rw [List.length_append, hlen]
    omega
  rw [hzeros] at hfile
  generalize (elfHeaders entry.address merged.text.length merged.data.length
    merged.rodata.length).flatten = headers at hfile hlen
  have hbases : elfBases merged.text.length merged.data.length =
      ⟨4194480, linkAlignUp (4194480 + merged.text.length) 4096,
        linkAlignUp (4194480 + merged.text.length) 4096 + merged.data.length⟩ := rfl
  -- the bytes of the file from the start of the second segment on
  have hsecond : ∀ p, file[(linkAlignUp (176 + merged.text.length) 4096).toNat + p]? =
      (merged.data ++ merged.rodata)[p]? := by
    intro p
    rw [← hfile, List.getElem?_append_right (by omega), List.getElem?_append_right (by omega),
      List.getElem?_append_right (by simp [elfPageSize]; omega)]
    congr 1
    simp only [length_bufWriteZeros, hlen, elfPageSize]
    omega
  constructor
  · intro p hp
    rw [load, if_pos rfl, hsegments, hbases, mapped_cons_of_mem (p := p) (by simp) hp, ← hfile,
      List.getElem?_append_right (by dsimp only; omega),
      List.getElem?_append_left (by simp only [hlen]; omega)]
    congr 1
    simp [hlen]
  · intro p hp
    rw [load, if_pos rfl, hsegments, hbases, mapped_cons_of_le (by simp; omega),
      mapped_cons_of_mem (p := p) (by simp; omega) (by simp; omega), hsecond,
      List.getElem?_append_left hp]
  · intro p hp
    rw [load, if_pos rfl, hsegments, hbases, mapped_cons_of_le (by simp; omega),
      mapped_cons_of_mem (p := merged.data.length + p) (by simp; omega) (by simp; omega), hsecond,
      List.getElem?_append_right (by omega), Nat.add_sub_cancel_left]

/-! ## The PE file -/

/-- The widths of the fields of the PE headers. -/
def peWidths : List ℕ :=
  [2, 58, 4, 4, 2, 2, 4, 4, 4, 2, 2, 2, 1, 1, 4, 4, 4, 4, 4, 8, 4, 4, 2, 2, 2, 2, 2, 2, 4, 4, 4, 4,
    2, 2, 8, 8, 8, 8, 4, 4, 128, 8, 4, 4, 4, 4, 4, 4, 2, 2, 4, 8, 4, 4, 4, 4, 4, 4, 2, 2, 4,
    8, 4, 4, 4, 4, 4, 4, 2, 2, 4]

theorem peHeaders_widths (entry t d r : ℤ) :
    (peHeaders entry t d r).map List.length = peWidths := by
  have htext : (peWriteSectionName ".text").length = 8 := by decide
  have hdata : (peWriteSectionName ".data").length = 8 := by decide
  have hrdata : (peWriteSectionName ".rdata").length = 8 := by decide
  simp [peHeaders, peSectionHeader, peWidths, htext, hdata, hrdata]

/-- A field of the headers. -/
theorem read_peHeaders {entry t d r : ℤ} {f rest : Buf} {k off n : ℕ}
    (hk : (peHeaders entry t d r)[k]? = some f) (hn : f.length = n)
    (hoff : (peWidths.take k).sum = off) :
    read ((peHeaders entry t d r).flatten ++ rest) off n = decode f :=
  read_flatten (peHeaders entry t d r) rest hk (by rw [peHeaders_widths, hoff]) hn

/-- A 32-bit field of the headers. -/
theorem read_peHeaders_u32 {entry t d r : ℤ} {rest : Buf} {k off : ℕ} {v : ℤ}
    (hk : (peHeaders entry t d r)[k]? = some (linkWriteU32Le v))
    (hoff : (peWidths.take k).sum = off) (h₀ : 0 ≤ v) (h : v < 2 ^ 32) :
    read ((peHeaders entry t d r).flatten ++ rest) off 4 = v.toNat :=
  (read_peHeaders hk rfl hoff).trans (decode_linkWriteU32Le h₀ h)

theorem length_peHeaders (entry t d r : ℤ) : (peHeaders entry t d r).flatten.length = 448 := by
  rw [List.length_flatten, peHeaders_widths]
  rfl

/-- The three segments of a PE file of the linker. -/
theorem peSegments_eq (entry : ℤ) (t d r : ℕ) (rest : Buf) (hsize : t + d + r < 2 ^ 31) :
    peSegments ((peHeaders entry t d r).flatten ++ rest) =
      [⟨512, 5368713216, t⟩,
        ⟨512 + (linkAlignUp t 512).toNat, 5368713216 + (linkAlignUp t 4096).toNat, d⟩,
        ⟨512 + (linkAlignUp t 512).toNat + (linkAlignUp d 512).toNat,
          5368713216 + (linkAlignUp t 4096).toNat + (linkAlignUp d 4096).toNat, r⟩] := by
  set file := (peHeaders entry t d r).flatten ++ rest
  have ht := linkAlignUp_spec (v := t) (a := 512) (by omega) (by decide)
  have hd := linkAlignUp_spec (v := d) (a := 512) (by omega) (by decide)
  have hr := linkAlignUp_spec (v := r) (a := 512) (by omega) (by decide)
  have ht' := linkAlignUp_spec (v := t) (a := 4096) (by omega) (by decide)
  have hd' := linkAlignUp_spec (v := d) (a := 4096) (by omega) (by decide)
  have hpe : read file 60 4 = 64 :=
    read_peHeaders (f := linkWriteU32Le 64) (k := 2) rfl rfl rfl
  have hbase : read file 112 8 = 5368709120 :=
    read_peHeaders (f := linkWriteU64Le 5368709120) (k := 19) rfl rfl rfl
  have hopt : read file 84 2 = 240 :=
    read_peHeaders (f := linkWriteU16Le 240) (k := 9) rfl rfl rfl
  have hnum : read file 70 2 = 3 :=
    read_peHeaders (f := linkWriteU16Le 3) (k := 5) rfl rfl rfl
  have hsize₀ : read file 336 4 = (t : ℤ).toNat :=
    read_peHeaders_u32 (k := 42) rfl rfl (by omega) (by omega)
  have hrva₀ : read file 340 4 = (4096 : ℤ).toNat :=
    read_peHeaders_u32 (k := 43) rfl rfl (by omega) (by omega)
  have hraw₀ : read file 344 4 = (linkAlignUp t 512).toNat :=
    read_peHeaders_u32 (k := 44) rfl rfl (by omega) (by omega)
  have hptr₀ : read file 348 4 = (512 : ℤ).toNat :=
    read_peHeaders_u32 (k := 45) rfl rfl (by omega) (by omega)
  have hsize₁ : read file 376 4 = (d : ℤ).toNat :=
    read_peHeaders_u32 (k := 52) rfl rfl (by omega) (by omega)
  have hrva₁ : read file 380 4 =
      (4096 + linkAlignUp t 4096).toNat :=
    read_peHeaders_u32 (k := 53) rfl rfl (by omega) (by omega)
  have hraw₁ : read file 384 4 = (linkAlignUp d 512).toNat :=
    read_peHeaders_u32 (k := 54) rfl rfl (by omega) (by omega)
  have hptr₁ : read file 388 4 =
      (512 + linkAlignUp t 512).toNat :=
    read_peHeaders_u32 (k := 55) rfl rfl (by omega) (by omega)
  have hsize₂ : read file 416 4 = (r : ℤ).toNat :=
    read_peHeaders_u32 (k := 62) rfl rfl (by omega) (by omega)
  have hrva₂ : read file 420 4 =
      (4096 + linkAlignUp t 4096 + linkAlignUp d 4096).toNat :=
    read_peHeaders_u32 (k := 63) rfl rfl (by omega) (by omega)
  have hraw₂ : read file 424 4 = (linkAlignUp r 512).toNat :=
    read_peHeaders_u32 (k := 64) rfl rfl (by omega) (by omega)
  have hptr₂ : read file 428 4 =
      (512 + linkAlignUp t 512 + linkAlignUp d 512).toNat :=
    read_peHeaders_u32 (k := 65) rfl rfl (by omega) (by omega)
  simp only [peSegments, hpe, Nat.reduceAdd, hbase, hopt, hnum, List.range_succ, List.range_zero,
    List.nil_append, List.cons_append, List.map_cons, List.map_nil, Nat.reduceMul, hsize₀, hrva₀,
    hraw₀, hptr₀, hsize₁, hrva₁, hraw₁, hptr₁, hsize₂, hrva₂, hraw₂, hptr₂]
  clear hpe hbase hopt hnum hsize₀ hrva₀ hraw₀ hptr₀ hsize₁ hrva₁ hraw₁ hptr₁ hsize₂ hrva₂ hraw₂ hptr₂
  simp only [List.cons.injEq, Segment.mk.injEq, and_true]
  refine ⟨⟨rfl, rfl, ?_⟩, ⟨?_, ?_, ?_⟩, ?_, ?_, ?_⟩ <;> omega

/-- **PE.** The image of the file maps the merged sections at the base addresses. -/
theorem pe_loads {merged : LinkerMerged} {entryName path : String}
    {symbols : List ResolvedSymbol} {result : LinkerResult} {file : Buf}
    (hemit : linkEmitPeExe merged entryName symbols path = (result, some file))
    (hsize : merged.text.length + merged.data.length + merged.rodata.length < 2 ^ 31) :
    Loads (load "windows" file) (peBases merged.text.length merged.data.length)
      merged.text merged.data merged.rodata := by
  obtain ⟨entry, hfile⟩ : ∃ entry : ResolvedSymbol, linkPadToAlignment (linkPadToAlignment
      (linkPadToAlignment (linkPadToAlignment (peHeaders entry.address merged.text.length
        merged.data.length merged.rodata.length).flatten peFileAlign ++ merged.text) peFileAlign ++
        merged.data) peFileAlign ++ merged.rodata) peFileAlign = file := by
    rw [linkEmitPeExe] at hemit
    split at hemit
    · simp at hemit
    · exact ⟨_, Option.some.inj (Prod.mk.inj hemit).2⟩
  have hsegments : ∀ rest, peSegments ((peHeaders entry.address merged.text.length
      merged.data.length merged.rodata.length).flatten ++ rest) = _ :=
    fun rest => peSegments_eq entry.address merged.text.length merged.data.length
      merged.rodata.length rest hsize
  have hlen := length_peHeaders entry.address merged.text.length merged.data.length
    merged.rodata.length
  generalize (peHeaders entry.address merged.text.length merged.data.length
    merged.rodata.length).flatten = headers at hfile hlen hsegments
  have ht := linkAlignUp_spec (v := merged.text.length) (a := 512) (by omega) (by decide)
  have hd := linkAlignUp_spec (v := merged.data.length) (a := 512) (by omega) (by decide)
  have ht' := linkAlignUp_spec (v := merged.text.length) (a := 4096) (by omega) (by decide)
  have hd' := linkAlignUp_spec (v := merged.data.length) (a := 4096) (by omega) (by decide)
  -- the file while it grows
  obtain ⟨out₁, hout₁⟩ : ∃ out, out = linkPadToAlignment headers peFileAlign := ⟨_, rfl⟩
  obtain ⟨out₂, hout₂⟩ : ∃ out, out = linkPadToAlignment (out₁ ++ merged.text) peFileAlign :=
    ⟨_, rfl⟩
  obtain ⟨out₃, hout₃⟩ : ∃ out, out = linkPadToAlignment (out₂ ++ merged.data) peFileAlign :=
    ⟨_, rfl⟩
  rw [← hout₁, ← hout₂, ← hout₃] at hfile
  have hpad : ∀ b x : Buf, b <+: linkPadToAlignment (b ++ x) peFileAlign := fun b x =>
    (List.prefix_append b x).trans (List.prefix_append _ _)
  obtain ⟨rest, hrest⟩ : headers <+: file := by
    rw [← hfile]
    refine List.IsPrefix.trans ?_ (hpad out₃ merged.rodata)
    rw [hout₃]
    refine List.IsPrefix.trans ?_ (hpad out₂ merged.data)
    rw [hout₂]
    refine List.IsPrefix.trans ?_ (hpad out₁ merged.text)
    rw [hout₁]
    exact List.prefix_append _ _
  have hsegs := hsegments rest
  rw [hrest] at hsegs
  have hlen₁ : out₁.length = 512 := by
    have := length_linkPadToAlignment headers (a := 512) (by decide)
    rw [hlen] at this
    rw [hout₁]
    exact Int.ofNat.inj this
  have hlen₂ : out₂.length = 512 + (linkAlignUp merged.text.length 512).toNat := by
    have hout := length_linkPadToAlignment (out₁ ++ merged.text) (a := 512) (by decide)
    have hspec := linkAlignUp_spec (v := (out₁ ++ merged.text).length) (a := 512) (by omega)
      (by decide)
    rw [List.length_append] at hout hspec
    rw [hout₂]
    simp only [peFileAlign] at *
    omega
  have hlen₃ : out₃.length = 512 + (linkAlignUp merged.text.length 512).toNat +
      (linkAlignUp merged.data.length 512).toNat := by
    have hout := length_linkPadToAlignment (out₂ ++ merged.data) (a := 512) (by decide)
    have hspec := linkAlignUp_spec (v := (out₂ ++ merged.data).length) (a := 512) (by omega)
      (by decide)
    rw [List.length_append] at hout hspec
    rw [hout₃]
    simp only [peFileAlign] at *
    omega
  have hbases : peBases merged.text.length merged.data.length =
      ⟨5368713216, 5368713216 + linkAlignUp merged.text.length 4096,
        5368713216 + linkAlignUp merged.text.length 4096 +
          linkAlignUp merged.data.length 4096⟩ := by
    simp only [peBases, peImageBase, peTextRva, peSectionAlign, Bases.mk.injEq]
    exact ⟨rfl, by omega, by omega⟩
  have hload : ∀ a, load "windows" file a = mapped file (peSegments file) a := fun a => rfl
  constructor
  · intro p hp
    rw [hload, hsegs, hbases, mapped_cons_of_mem (p := p) (by simp) hp, ← hfile,
      getElem?_pad_append_left _ _ _ (by dsimp only; omega), hout₃,
      getElem?_pad_append_left _ _ _ (by dsimp only; omega), hout₂, ← hlen₁]
    exact getElem?_pad_append out₁ merged.text peFileAlign hp
  · intro p hp
    rw [hload, hsegs, hbases, mapped_cons_of_le (by dsimp only; omega),
      mapped_cons_of_mem (p := p) (by push_cast; omega) hp, ← hfile,
      getElem?_pad_append_left _ _ _ (by dsimp only; omega), hout₃, ← hlen₂]
    exact getElem?_pad_append out₂ merged.data peFileAlign hp
  · intro p hp
    rw [hload, hsegs, hbases, mapped_cons_of_le (by dsimp only; omega),
      mapped_cons_of_le (by push_cast; omega), mapped_cons_of_mem (p := p) (by push_cast; omega) hp,
      ← hfile, ← hlen₃]
    exact getElem?_pad_append out₃ merged.rodata peFileAlign hp

end Kryos.SelfHost.Linker

import Kryos.SelfHost.LinkImage
import Mathlib.Data.List.Flatten
import Mathlib.Data.List.Induction

/-!
# What the passes of the linker compute

The merged sections are the parts of the inputs, each at its start; the table of symbols answers a
name with its first definition, in the order of the inputs; and the relocations are so many patches
of the merged `.text`.

## Main results

* `getElem?_mergeParts` — the bytes of an input in the merged section
* `linkFindSymbol_table` — a name is resolved to its first definition
* `linkApplyRelocations_eq` — the relocations as one list of patches
-/

namespace Kryos.SelfHost.Linker

open LittleEndian

/-! ## Merged sections -/

/-- One merged section: the parts of the inputs, each padded. -/
def mergeParts (align : ℤ) (parts : List Buf) : Buf :=
  parts.foldl (fun acc part => linkPadToAlignment (acc ++ part) align) []

/-- Where the part of input `i` starts. -/
def partStart (align : ℤ) (parts : List Buf) (i : ℕ) : ℕ :=
  (mergeParts align (parts.take i)).length

theorem mergeParts_concat (align : ℤ) (parts : List Buf) (part : Buf) :
    mergeParts align (parts ++ [part]) =
      linkPadToAlignment (mergeParts align parts ++ part) align := by
  rw [mergeParts, List.foldl_append, List.foldl_cons, List.foldl_nil, ← mergeParts]

variable {align : ℤ} {parts : List Buf} {i : ℕ}

theorem mergeParts_take_succ {part : Buf} (hi : parts[i]? = some part) :
    mergeParts align (parts.take (i + 1)) =
      linkPadToAlignment (mergeParts align (parts.take i) ++ part) align := by
  rw [List.take_add_one, hi, Option.toList_some, mergeParts_concat]

theorem mergeParts_take_append (align : ℤ) (parts : List Buf) {j : ℕ} (hij : i ≤ j) :
    mergeParts align (parts.take i) <+: mergeParts align (parts.take j) := by
  induction j, hij using Nat.le_induction with
  | base => exact List.prefix_rfl
  | succ j _ ih =>
    refine ih.trans ?_
    cases hj : parts[j]? with
    | none =>
      have hsame : parts.take (j + 1) = parts.take j := by
        rw [List.take_add_one, hj, Option.toList_none, List.append_nil]
      exact hsame ▸ List.prefix_rfl
    | some part =>
      rw [mergeParts_take_succ hj, linkPadToAlignment, List.append_assoc]
      exact List.prefix_append _ _

theorem mergeParts_take_append_self (align : ℤ) (parts : List Buf) (i : ℕ) :
    mergeParts align (parts.take i) <+: mergeParts align parts := by
  have h := mergeParts_take_append align parts (Nat.le_max_left i parts.length)
  rwa [List.take_of_length_le (Nat.le_max_right i parts.length)] at h

theorem partStart_mono (align : ℤ) (parts : List Buf) {j : ℕ} (hij : i ≤ j) :
    partStart align parts i ≤ partStart align parts j :=
  (mergeParts_take_append align parts hij).length_le

theorem partStart_le (align : ℤ) (parts : List Buf) (i : ℕ) :
    partStart align parts i ≤ (mergeParts align parts).length :=
  (mergeParts_take_append_self align parts i).length_le

/-- The parts do not overlap. -/
theorem partStart_add_le {j : ℕ} {part : Buf} (hi : parts[i]? = some part) (hij : i < j) :
    partStart align parts i + part.length ≤ partStart align parts j := by
  refine le_trans ?_ (partStart_mono align parts (Nat.succ_le_of_lt hij))
  rw [partStart, partStart, mergeParts_take_succ hi, linkPadToAlignment, List.length_append,
    List.length_append]
  exact Nat.le_add_right _ _

theorem partStart_add_le_length {part : Buf} (hi : parts[i]? = some part) :
    partStart align parts i + part.length ≤ (mergeParts align parts).length :=
  (partStart_add_le hi (Nat.lt_succ_self i)).trans (partStart_le align parts (i + 1))

/-- The bytes of a part. -/
theorem getElem?_mergeParts {p : ℕ} {part : Buf} (hi : parts[i]? = some part) (hp : p < part.length)
    :
    (mergeParts align parts)[partStart align parts i + p]? = part[p]? := by
  obtain ⟨rest, hrest⟩ := mergeParts_take_append_self align parts (i + 1)
  have hlt : partStart align parts i + p < (mergeParts align (parts.take (i + 1))).length := by
    exact lt_of_lt_of_le (Nat.add_lt_add_left hp _) (partStart_add_le hi (Nat.lt_add_one i))
  rw [← hrest, List.getElem?_append_left hlt, mergeParts_take_succ hi, partStart]
  exact getElem?_pad_append _ part align hp

theorem partStart_append (hi : i ≤ parts.length) (part : Buf) :
    partStart align (parts ++ [part]) i = partStart align parts i := by
  rw [partStart, partStart, List.take_append_of_le_length hi]

/-- The offsets that are recorded for one section. -/
def partOffsets (align : ℤ) (parts : List Buf) : List ℤ :=
  (List.range parts.length).map fun i => i32 (partStart align parts i)

theorem partOffsets_concat (align : ℤ) (parts : List Buf) (part : Buf) :
    partOffsets align (parts ++ [part]) =
      partOffsets align parts ++ [i32 (mergeParts align parts).length] := by
  have hold : ∀ i ∈ List.range parts.length, i32 (partStart align (parts ++ [part]) i) =
      i32 (partStart align parts i) := by
    intro i hi
    rw [partStart_append (List.mem_range.mp hi).le]
  rw [partOffsets, List.length_append, List.length_singleton, List.range_succ, List.map_append,
    List.map_congr_left hold, List.map_singleton, partStart_append le_rfl, partStart,
    List.take_length, partOffsets]

theorem partOffsets_getD (hi : i < parts.length) (hsmall : (mergeParts align parts).length < 2 ^ 31)
    :
    (partOffsets align parts).getD i 0 = partStart align parts i := by
  have hle := partStart_le align parts i
  have hget : (partOffsets align parts)[i]? = some (i32 (partStart align parts i)) := by
    rw [partOffsets, List.getElem?_map, List.getElem?_range hi, Option.map_some]
  rw [List.getD_eq_getElem?_getD, hget, Option.getD_some, i32, Int.bmod_eq_of_le] <;> omega

theorem linkMergeSections_eq (inputs : List LinkerInput) : linkMergeSections inputs =
    { text := mergeParts 16 (inputs.map LinkerInput.textData)
      data := mergeParts 8 (inputs.map LinkerInput.dataData)
      rodata := mergeParts 8 (inputs.map LinkerInput.rodataData)
      textOffsets := partOffsets 16 (inputs.map LinkerInput.textData)
      dataOffsets := partOffsets 8 (inputs.map LinkerInput.dataData)
      rodataOffsets := partOffsets 8 (inputs.map LinkerInput.rodataData) } := by
  induction inputs using List.reverseRecOn with
  | nil => rfl
  | append_singleton inputs inp ih =>
    rw [linkMergeSections, List.foldl_append, List.foldl_cons, List.foldl_nil, ← linkMergeSections,
      ih, mergeInput]
    simp only [List.map_append, List.map_cons, List.map_nil, mergeParts_concat, partOffsets_concat]

/-! ## The table of symbols -/

/-- The definitions of all inputs in order, with the input each belongs to. -/
def definitions (inputs : List LinkerInput) : List (ℕ × LinkerSymbol) :=
  inputs.zipIdx.flatMap fun (inp, i) => (inp.symbols.filter (·.sec ≠ lsecUndef)).map (i, ·)

/-- The table entry of a definition. -/
def resolved (merged : LinkerMerged) (bases : Bases) (d : ℕ × LinkerSymbol) : ResolvedSymbol :=
  ⟨d.2.name, symbolAddress merged bases d.1 d.2, d.2.sec, d.2.isGlobal, d.2.isFunc, d.2.size⟩

/-- The first of the definitions with the name. -/
def firstDefinition (ds : List (ℕ × LinkerSymbol)) (name : String) : Option (ℕ × LinkerSymbol) :=
  ds.find? (·.2.name = name)

/-- Entering one symbol: a name that is in the table keeps its entry, whether the symbol is left
out or entered behind it. -/
theorem linkFindSymbol_resolveSymbol (merged : LinkerMerged) (bases : Bases) (i : ℕ)
    (acc : List ResolvedSymbol × List String) (sym : LinkerSymbol) (name : String) :
    linkFindSymbol (resolveSymbol merged bases i acc sym).1 name =
      (linkFindSymbol acc.1 name).or
        (if sym.sec ≠ lsecUndef ∧ sym.name = name then some (resolved merged bases (i, sym))
          else none) := by
  by_cases hsec : sym.sec = lsecUndef
  · simp [resolveSymbol, hsec]
  simp only [resolveSymbol, hsec, if_false, ne_eq, not_false_eq_true, true_and]
  by_cases hname : sym.name = name
  · rw [if_pos hname]
    split_ifs with hdup
    · rw [hname] at hdup
      exact (Option.or_of_isSome hdup.2).symm
    · simp [linkFindSymbol, List.find?_append, resolved, hname]
  · rw [if_neg hname, Option.or_none]
    split_ifs
    · rfl
    · simp [linkFindSymbol, List.find?_append, hname]

theorem linkFindSymbol_foldl (merged : LinkerMerged) (bases : Bases) (i : ℕ)
    (syms : List LinkerSymbol) (acc : List ResolvedSymbol × List String) (name : String) :
    linkFindSymbol (syms.foldl (resolveSymbol merged bases i) acc).1 name =
      (linkFindSymbol acc.1 name).or
        ((firstDefinition ((syms.filter (·.sec ≠ lsecUndef)).map (i, ·)) name).map
          (resolved merged bases)) := by
  induction syms generalizing acc with
  | nil => exact (Option.or_none).symm
  | cons sym syms ih =>
    rw [List.foldl_cons, ih, linkFindSymbol_resolveSymbol, Option.or_assoc]
    congr 1
    by_cases hsec : sym.sec = lsecUndef
    · simp [hsec]
    · by_cases hname : sym.name = name
      · simp [hsec, hname, firstDefinition]
      · simp [hsec, hname, firstDefinition]

theorem linkFindSymbol_foldl_inputs (merged : LinkerMerged) (bases : Bases)
    (inputs : List (LinkerInput × ℕ)) (acc : List ResolvedSymbol × List String) (name : String) :
    linkFindSymbol (inputs.foldl
        (fun acc x => x.1.symbols.foldl (resolveSymbol merged bases x.2) acc) acc).1 name =
      (linkFindSymbol acc.1 name).or
        ((firstDefinition (inputs.flatMap fun x =>
          (x.1.symbols.filter (·.sec ≠ lsecUndef)).map (x.2, ·)) name).map
            (resolved merged bases)) := by
  induction inputs generalizing acc with
  | nil => exact (Option.or_none).symm
  | cons x inputs ih =>
    rw [List.foldl_cons, ih, linkFindSymbol_foldl, Option.or_assoc, List.flatMap_cons]
    congr 1
    rw [firstDefinition, firstDefinition, firstDefinition, List.find?_append]
    cases List.find? (fun d : ℕ × LinkerSymbol => decide (d.2.name = name))
      ((x.1.symbols.filter (·.sec ≠ lsecUndef)).map (x.2, ·)) <;> rfl

/-- **First definition wins.** A name is resolved to its first definition among all the inputs,
local or global, and to the synthetic symbol where there is none. -/
theorem linkFindSymbol_table (inputs : List LinkerInput) (merged : LinkerMerged) (bases : Bases)
    (name : String) :
    linkFindSymbol (linkResolveSymbols inputs merged bases).1 name =
      ((firstDefinition (definitions inputs) name).map (resolved merged bases)).or
        (linkFindSymbol (syntheticSymbols bases) name) := by
  have hdefined := linkFindSymbol_foldl_inputs merged bases inputs.zipIdx ([], []) name
  rw [show linkFindSymbol ([], ([] : List String)).1 name = none from rfl, Option.none_or]
    at hdefined
  rw [linkResolveSymbols, definitions, ← hdefined, linkFindSymbol, List.find?_append]
  rfl

/-! ## The relocations as patches -/

/-- The relocations of all inputs in order, with the input each belongs to. -/
def relocations (inputs : List LinkerInput) : List (ℕ × LinkerReloc) :=
  inputs.zipIdx.flatMap fun (inp, i) => inp.relocations.map (i, ·)

/-- How many bytes a relocation patches. -/
def fieldWidth (relType : ℤ) : Option ℕ :=
  if relType = lrelPc32 then some 4
  else if relType = lrelAbs64 then some 8
  else if relType = lrelAbs32 then some 4
  else none

/-- What a relocation stores at the address `site`, for a target at the address `target`. -/
def fieldValue (reloc : LinkerReloc) (site target : ℤ) : ℤ :=
  if reloc.relType = lrelPc32 then target - site + reloc.addend else target + reloc.addend

/-- The end of the patch wraps around and lands inside the buffer. -/
def Wraps (len : ℕ) (site : ℤ) (w : ℕ) : Prop :=
  site < 0 ∧ 0 ≤ site + w ∧ site + w ≤ len

theorem bufPatch_eq_none_iff {buf bytes : Buf} {site : ℤ} :
    bufPatch buf site bytes = none ↔ Wraps buf.length site bytes.length := by
  rw [bufPatch, Wraps]
  split_ifs with hsite <;> simp <;> omega

theorem bufPatch_of_le {buf bytes : Buf} {site : ℤ} (h₀ : 0 ≤ site)
    (h : site + bytes.length ≤ buf.length) :
    bufPatch buf site bytes = some (splice buf site.toNat bytes) := by
  rw [bufPatch, if_pos h₀, if_pos h]

theorem length_bufPatch {buf bytes buf' : Buf} {site : ℤ}
    (h : bufPatch buf site bytes = some buf') : buf'.length = buf.length := by
  rw [bufPatch] at h
  split_ifs at h with hsite hlen
  · obtain rfl := Option.some.inj h
    exact length_splice (by omega)
  · obtain rfl := Option.some.inj h
    rfl
  · obtain rfl := Option.some.inj h
    rfl

section Apply

variable (symbols : List ResolvedSymbol) (bases : Bases) (start : ℕ → ℤ)

/-- One relocation of the list. -/
def applyOne (st : Buf × Bool) (x : ℕ × LinkerReloc) : Option (Buf × Bool) :=
  linkApplyRelocation symbols bases (start x.1) st x.2

theorem linkApplyRelocations_eq (merged : LinkerMerged) (inputs : List LinkerInput) :
    linkApplyRelocations merged inputs symbols bases =
      (relocations inputs).foldlM (applyOne symbols bases fun i => merged.textOffsets.getD i 0)
        (merged.text, false) := by
  rw [linkApplyRelocations, relocations]
  generalize (merged.text, false) = st
  induction inputs.zipIdx generalizing st with
  | nil => rfl
  | cons x xs ih =>
    rw [List.foldlM_cons, List.flatMap_cons, List.foldlM_append, List.foldlM_map]
    congr 1
    funext st'
    exact ih st'

variable {symbols bases start}

theorem applyOne_of_find {st : Buf × Bool} {x : ℕ × LinkerReloc} {sym : ResolvedSymbol} {w : ℕ}
    (hsym : linkFindSymbol symbols x.2.symbolName = some sym)
    (hw : fieldWidth x.2.relType = some w) :
    applyOne symbols bases start st x =
      (bufPatch st.1 (start x.1 + x.2.offset) (encode w (fieldValue x.2
        (bases.text + (start x.1 + x.2.offset)) sym.address))).map (·, st.2) := by
  rw [applyOne, linkApplyRelocation, hsym]
  simp only [fieldWidth] at hw
  simp only [fieldValue]
  split_ifs at hw ⊢ <;> simp_all

/-- What one relocation does, as far as the flag and the length are concerned. -/
theorem applyOne_spec (symbols : List ResolvedSymbol) (bases : Bases) (start : ℕ → ℤ)
    (st : Buf × Bool) (x : ℕ × LinkerReloc) :
    (linkFindSymbol symbols x.2.symbolName = none ∧
      applyOne symbols bases start st x = some (st.1, true)) ∨
    ((linkFindSymbol symbols x.2.symbolName).isSome ∧
      (∃ w, fieldWidth x.2.relType = some w ∧ Wraps st.1.length (start x.1 + x.2.offset) w) ∧
      applyOne symbols bases start st x = none) ∨
    ((linkFindSymbol symbols x.2.symbolName).isSome ∧
      (¬ ∃ w, fieldWidth x.2.relType = some w ∧ Wraps st.1.length (start x.1 + x.2.offset) w) ∧
      ∃ text, applyOne symbols bases start st x = some (text, st.2) ∧
        text.length = st.1.length) := by
  cases hsym : linkFindSymbol symbols x.2.symbolName with
  | none =>
    refine Or.inl ⟨rfl, ?_⟩
    rw [applyOne, linkApplyRelocation, hsym]
  | some sym =>
    refine Or.inr ?_
    cases hw : fieldWidth x.2.relType with
    | none =>
      refine Or.inr ⟨rfl, by simp, st.1, ?_, rfl⟩
      rw [applyOne, linkApplyRelocation, hsym]
      simp only [fieldWidth] at hw
      split_ifs at hw ⊢
      rfl
    | some w =>
      rw [applyOne_of_find hsym hw]
      cases hpatch : bufPatch st.1 (start x.1 + x.2.offset) (encode w (fieldValue x.2
        (bases.text + (start x.1 + x.2.offset)) sym.address)) with
      | none =>
        rw [bufPatch_eq_none_iff, length_encode] at hpatch
        exact Or.inl ⟨rfl, ⟨w, rfl, hpatch⟩, rfl⟩
      | some text =>
        refine Or.inr ⟨rfl, ?_, text, rfl, length_bufPatch hpatch⟩
        rintro ⟨w', hw', hwraps⟩
        obtain rfl := Option.some.inj hw'
        rw [bufPatch_eq_none_iff.mpr (by rwa [length_encode])] at hpatch
        simp at hpatch

/-- The relocations go through without error iff every name is in the table and no patch wraps. -/
theorem foldlM_applyOne_iff (xs : List (ℕ × LinkerReloc)) (text : Buf) (err : Bool) :
    (∃ text', xs.foldlM (applyOne symbols bases start) (text, err) = some (text', false)) ↔
      err = false ∧ ∀ x ∈ xs, (linkFindSymbol symbols x.2.symbolName).isSome ∧
        ¬ ∃ w, fieldWidth x.2.relType = some w ∧
          Wraps text.length (start x.1 + x.2.offset) w := by
  induction xs generalizing text err with
  | nil => simp
  | cons x xs ih =>
    rw [List.foldlM_cons, List.forall_mem_cons]
    obtain ⟨hnone, happly⟩ | ⟨hsome, hwraps, happly⟩ | ⟨hsome, hwraps, text', happly, hlen⟩ :=
      applyOne_spec symbols bases start (text, err) x
    · rw [happly, hnone]
      simp only [Option.bind_eq_bind, Option.bind_some, ih]
      simp
    · rw [happly]
      simp [hwraps]
    · rw [happly]
      simp only [Option.bind_eq_bind, Option.bind_some, ih, hlen, hsome, hwraps, not_false_eq_true,
        and_self, true_and]

/-- The patch of a relocation whose symbol is in the table. -/
def patchOf (symbols : List ResolvedSymbol) (bases : Bases) (start : ℕ → ℤ)
    (x : ℕ × LinkerReloc) : ℕ × Buf :=
  let site := start x.1 + x.2.offset
  let target := ((linkFindSymbol symbols x.2.symbolName).map (·.address)).getD 0
  (site.toNat, encode ((fieldWidth x.2.relType).getD 0)
    (fieldValue x.2 (bases.text + site) target))

/-- Where every field lies inside `.text`, the relocations are patches of it. -/
theorem foldlM_applyOne_eq {xs : List (ℕ × LinkerReloc)} {text : Buf} {err : Bool}
    (hfound : ∀ x ∈ xs, (linkFindSymbol symbols x.2.symbolName).isSome)
    (hin : ∀ x ∈ xs, ∃ w, fieldWidth x.2.relType = some w ∧ 0 ≤ start x.1 + x.2.offset ∧
      start x.1 + x.2.offset + w ≤ text.length) :
    xs.foldlM (applyOne symbols bases start) (text, err) =
      some (splices text (xs.map (patchOf symbols bases start)), err) := by
  induction xs generalizing text with
  | nil => rfl
  | cons x xs ih =>
    obtain ⟨sym, hsym⟩ := Option.isSome_iff_exists.mp (hfound x List.mem_cons_self)
    obtain ⟨w, hw, hsite, hend⟩ := hin x List.mem_cons_self
    have hpatch : patchOf symbols bases start x = ((start x.1 + x.2.offset).toNat,
        encode w (fieldValue x.2 (bases.text + (start x.1 + x.2.offset)) sym.address)) := by
      rw [patchOf, hsym, hw]
      rfl
    have hlen : (splice text (start x.1 + x.2.offset).toNat (encode w (fieldValue x.2
        (bases.text + (start x.1 + x.2.offset)) sym.address))).length = text.length :=
      length_splice (by rw [length_encode]; omega)
    rw [List.foldlM_cons, applyOne_of_find hsym hw,
      bufPatch_of_le hsite (by rw [length_encode]; exact hend), Option.map_some,
      List.map_cons, hpatch, splices, List.foldl_cons]
    refine ih (fun y hy => hfound y (List.mem_cons_of_mem x hy)) fun y hy => ?_
    rw [hlen]
    exact hin y (List.mem_cons_of_mem x hy)

end Apply

end Kryos.SelfHost.Linker

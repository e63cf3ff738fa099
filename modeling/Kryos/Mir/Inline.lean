import Mathlib
import Kryos.Mir.Calls

/-!
# Inlining

`inline_functions` of `kryos-mir/src/optimize/inline.rs`: a call of a small single-block function
without calls is replaced by copies of the arguments, the callee's instructions over fresh locals,
and a copy of the result.

The copy of a callee lives in the caller's activation and is reused when the call is executed
again. Registers left over from the previous time are harmless, since a local is written before it
is used. Memory is not: a local whose address was taken keeps its address, where a call would have
a new one. So the runs agree as long as no inlined call is executed again, in one activation, after
its callee has taken the address of a local.

## Main results

* `siteTable_disjoint`, `perm_inlineCallsInFunction` — fresh locals are fresh
* `inline_simulation` — a call frame is simulated by a renamed copy
* `inlining_agrees` — whole runs
-/

namespace Kryos

/-! ## The pass -/

/-- Information about an inlinable function. -/
structure InlineCandidate where
  instructions : List Instruction
  locals : List MirLocal
  paramLocals : List LocalId
  retOperand : Option Operand

/-- Some instruction contains a function call. -/
def containsCall (instructions : List Instruction) : Bool :=
  instructions.any fun
    | .assign _ (.call _ _) | .assign _ (.callIndirect _ _) | .assign _ (.vtableCall _ _ _ _)
    | .spawn _ _ => true
    | _ => false

/-- The candidate a function is, if it is eligible. -/
def candidateOf (threshold : ℕ) (f : MirFunction) : Option InlineCandidate :=
  match f.blocks with
  | [block] =>
    if !f.attributes.inline && block.instructions.length > threshold then none
    else if containsCall block.instructions then none
    else match block.terminator with
      | .ret op => some ⟨block.instructions, f.locals, f.paramLocals, op⟩
      | _ => none
  | _ => none

/-- The eligible functions, in the order they are inserted into the map. -/
def findCandidates (M : MirModule) (threshold : ℕ) : List (String × InlineCandidate) :=
  M.functions.filterMap fun f => (candidateOf threshold f).map fun c => (f.name, c)

/-- The map's entry for a name: the one inserted last. -/
def getCandidate (candidates : List (String × InlineCandidate)) (name : String) :
    Option InlineCandidate :=
  (candidates.reverse.find? fun c => c.1 == name).map Prod.snd

def remapOperand (op : Operand) (offset : ℕ) : Operand := op.rename (· + offset)

def remapInstruction (inst : Instruction) (offset : ℕ) : Instruction := inst.rename (· + offset)

/-- The call of a candidate that an instruction of function `self` is. -/
def siteOf (self : String) (candidates : List (String × InlineCandidate)) :
    Instruction → Option (LocalId × InlineCandidate × List Operand)
  | .assign dest (.call func args) =>
    if func == self then none
    else (getCandidate candidates func).map fun c => (dest, c, args)
  | _ => none

/-- Assign the callee's return value to the call's destination. -/
def assignReturn (dest : LocalId) (offset : ℕ) : Option Operand → List Instruction
  | some op => [.assign dest (.use (remapOperand op offset))]
  | none => []

/-- The code that replaces a call. -/
def expandSite (offset : ℕ) (dest : LocalId) (c : InlineCandidate) (args : List Operand) :
    List Instruction :=
  (c.paramLocals.zip args).map (fun (param, arg) => .assign (param + offset) (.use arg)) ++
    (c.instructions.map (remapInstruction · offset) ++ assignReturn dest offset c.retOperand)

/-- The locals of a callee, as the caller declares them. -/
def shiftLocals (offset : ℕ) (locals : List MirLocal) : List MirLocal :=
  locals.map fun l => { l with id := l.id + offset }

/-- The loop over the instructions of a block, with the locals declared so far. -/
def inlineInstructions (self : String) (candidates : List (String × InlineCandidate)) :
    List Instruction → List MirLocal → List Instruction × List MirLocal
  | [], locals => ([], locals)
  | inst :: insts, locals =>
    match siteOf self candidates inst with
    | some (dest, c, args) =>
      let r := inlineInstructions self candidates insts
        (locals ++ shiftLocals locals.length c.locals)
      (expandSite locals.length dest c args ++ r.1, r.2)
    | none =>
      let r := inlineInstructions self candidates insts locals
      (inst :: r.1, r.2)

/-- The loop over the blocks of a function. -/
def inlineBlocks (self : String) (candidates : List (String × InlineCandidate)) :
    List BasicBlock → List MirLocal → List BasicBlock × List MirLocal
  | [], locals => ([], locals)
  | b :: bs, locals =>
    let r := inlineInstructions self candidates b.instructions locals
    let r' := inlineBlocks self candidates bs r.2
    ({ b with instructions := r.1 } :: r'.1, r'.2)

def inlineCallsInFunction (candidates : List (String × InlineCandidate)) (f : MirFunction) :
    MirFunction :=
  let r := inlineBlocks f.name candidates f.blocks f.locals
  { f with blocks := r.1, locals := r.2 }

/-- Inline small leaf functions across the entire module. -/
def inlineFunctions (M : MirModule) (threshold : ℕ) : MirModule :=
  let candidates := findCandidates M threshold
  if candidates.isEmpty then M
  else { functions := M.functions.map (inlineCallsInFunction candidates) }

/-! ## Where the copies are -/

variable {insts : List Instruction}

variable {args : List Operand} {len : ℕ}

section Table

variable (self : String) (candidates : List (String × InlineCandidate))

/-- How many locals a list of instructions adds. -/
def growth (insts : List Instruction) : ℕ :=
  (insts.map fun inst => ((siteOf self candidates inst).map fun s => s.2.1.locals.length).getD 0).sum

/-- The first local of the copy for the call with `k` instructions after it, and the number of
locals of the copy; the list starts when `n` locals are declared. -/
def instTable : List Instruction → ℕ → ℕ → Option (ℕ × ℕ)
  | [], _, _ => none
  | inst :: insts, n, k =>
    match siteOf self candidates inst with
    | some (_, c, _) =>
      if k = insts.length then some (n, c.locals.length)
      else instTable insts (n + c.locals.length) k
    | none => instTable insts n k

/-- The copy for a call, over a list of blocks. -/
def blockTable : List BasicBlock → ℕ → Site → Option (ℕ × ℕ)
  | [], _, _ => none
  | b :: bs, n, s =>
    if b.id = s.1 then instTable self candidates b.instructions n s.2
    else blockTable bs (n + growth self candidates b.instructions) s

variable {self candidates}

theorem growth_cons_site {inst : Instruction} {dest : LocalId} {c : InlineCandidate}
    (h : siteOf self candidates inst = some (dest, c, args)) (insts : List Instruction) :
    growth self candidates (inst :: insts) = c.locals.length + growth self candidates insts := by
  simp [growth, h]

theorem growth_cons_none {inst : Instruction} (h : siteOf self candidates inst = none)
    (insts : List Instruction) :
    growth self candidates (inst :: insts) = growth self candidates insts := by
  simp [growth, h]

theorem instTable_bounds {n k off : ℕ} (h : instTable self candidates insts n k = some (off, len)) :
    n ≤ off ∧ off + len ≤ n + growth self candidates insts ∧ k < insts.length := by
  induction insts generalizing n with
  | nil => cases h
  | cons inst insts ih =>
    rcases hs : siteOf self candidates inst with _ | ⟨dest, c, args⟩
    · simp only [instTable, hs] at h
      obtain ⟨h₁, h₂, h₃⟩ := ih h
      rw [growth_cons_none hs]
      exact ⟨h₁, h₂, Nat.lt_succ_of_lt h₃⟩
    · simp only [instTable, hs] at h
      rw [growth_cons_site hs, List.length_cons]
      split at h
      · obtain ⟨rfl, rfl⟩ := Prod.mk.inj (Option.some.inj h)
        omega
      · have := ih h
        omega

/-- Different calls have disjoint copies. -/
theorem instTable_disjoint {n k k' off off' len' : ℕ} (hk : k ≠ k')
    (h : instTable self candidates insts n k = some (off, len))
    (h' : instTable self candidates insts n k' = some (off', len')) :
    off + len ≤ off' ∨ off' + len' ≤ off := by
  induction insts generalizing n with
  | nil => cases h
  | cons inst insts ih =>
    rcases hs : siteOf self candidates inst with _ | ⟨dest, c, args⟩
    · simp only [instTable, hs] at h h'
      exact ih h h'
    · simp only [instTable, hs] at h h'
      split at h <;> split at h'
      · omega
      · obtain ⟨rfl, rfl⟩ := Prod.mk.inj (Option.some.inj h)
        exact .inl (instTable_bounds h').1
      · obtain ⟨rfl, rfl⟩ := Prod.mk.inj (Option.some.inj h')
        exact .inr (instTable_bounds h).1
      · exact ih h h'

theorem blockTable_bounds {bs : List BasicBlock} {n off : ℕ} {s : Site}
    (h : blockTable self candidates bs n s = some (off, len)) :
    n ≤ off ∧ off + len ≤ n + (bs.map fun b => growth self candidates b.instructions).sum := by
  induction bs generalizing n with
  | nil => cases h
  | cons b bs ih =>
    simp only [blockTable] at h
    simp only [List.map_cons, List.sum_cons]
    split at h
    · have := instTable_bounds h
      omega
    · have := ih h
      omega

theorem blockTable_disjoint {bs : List BasicBlock} {n off off' len' : ℕ} {s s' : Site} (hs : s ≠ s')
    (h : blockTable self candidates bs n s = some (off, len))
    (h' : blockTable self candidates bs n s' = some (off', len')) :
    off + len ≤ off' ∨ off' + len' ≤ off := by
  induction bs generalizing n with
  | nil => cases h
  | cons b bs ih =>
    simp only [blockTable] at h h'
    split at h <;> split at h'
    · rename_i hid hid'
      have hk : s.2 ≠ s'.2 := fun hk => hs (Prod.ext (hid.symm.trans hid') hk)
      exact instTable_disjoint hk h h'
    · exact .inl ((instTable_bounds h).2.1.trans (blockTable_bounds h').1)
    · exact .inr ((instTable_bounds h').2.1.trans (blockTable_bounds h).1)
    · exact ih h h'

/-- A list of instructions and what the pass makes of it, with the copies at the locals that `T`
gives for each call. -/
inductive Inlined (self : String) (candidates : List (String × InlineCandidate))
    (T : ℕ → Option (ℕ × ℕ)) : List Instruction → List Instruction → Prop
  | nil : Inlined self candidates T [] []
  | keep {inst : Instruction} {insts insts' : List Instruction}
    (hsite : siteOf self candidates inst = none) (h : Inlined self candidates T insts insts') :
    Inlined self candidates T (inst :: insts) (inst :: insts')
  | site {inst : Instruction} {insts insts' : List Instruction} {dest : LocalId}
    {c : InlineCandidate} {args : List Operand} {off : ℕ}
    (hsite : siteOf self candidates inst = some (dest, c, args))
    (hT : T insts.length = some (off, c.locals.length))
    (h : Inlined self candidates T insts insts') :
    Inlined self candidates T (inst :: insts) (expandSite off dest c args ++ insts')

theorem Inlined.split {T : ℕ → Option (ℕ × ℕ)} {rest rest' : List Instruction}
    (h : Inlined self candidates T rest rest') :
    (rest = [] ∧ rest' = []) ∨
      (∃ inst r r', rest = inst :: r ∧ rest' = inst :: r' ∧ Inlined self candidates T r r') ∨
      ∃ inst r r' dest c args off, rest = inst :: r ∧ rest' = expandSite off dest c args ++ r' ∧
        siteOf self candidates inst = some (dest, c, args) ∧
        T r.length = some (off, c.locals.length) ∧ Inlined self candidates T r r' := by
  rcases h with _ | ⟨hsite, h⟩ | ⟨hsite, hT, h⟩
  · exact .inl ⟨rfl, rfl⟩
  · exact .inr (.inl ⟨_, _, _, rfl, rfl, h⟩)
  · exact .inr (.inr ⟨_, _, _, _, _, _, _, rfl, rfl, hsite, hT, h⟩)

theorem Inlined.congr {T T' : ℕ → Option (ℕ × ℕ)} {insts' : List Instruction}
    (h : Inlined self candidates T insts insts') (hT : ∀ k < insts.length, T' k = T k) :
    Inlined self candidates T' insts insts' := by
  induction h with
  | nil => exact .nil
  | keep hsite _ ih => exact .keep hsite (ih fun k hk => hT k (Nat.lt_succ_of_lt hk))
  | site hsite hoff _ ih =>
    exact .site hsite ((hT _ (Nat.lt_succ_self _)).trans hoff)
      (ih fun k hk => hT k (Nat.lt_succ_of_lt hk))

theorem length_inlineInstructions (insts : List Instruction) (locals : List MirLocal) :
    (inlineInstructions self candidates insts locals).2.length =
      locals.length + growth self candidates insts := by
  induction insts generalizing locals with
  | nil => rfl
  | cons inst insts ih =>
    rcases hs : siteOf self candidates inst with _ | ⟨dest, c, args⟩
    · simp only [inlineInstructions, hs, ih, growth_cons_none hs]
    · simp only [inlineInstructions, hs, ih, growth_cons_site hs, List.length_append, shiftLocals,
        List.length_map]
      omega

theorem inlined_inlineInstructions (insts : List Instruction) (locals : List MirLocal) :
    Inlined self candidates (instTable self candidates insts locals.length) insts
      (inlineInstructions self candidates insts locals).1 := by
  induction insts generalizing locals with
  | nil => exact .nil
  | cons inst insts ih =>
    rcases hs : siteOf self candidates inst with _ | ⟨dest, c, args⟩
    · simp only [inlineInstructions, hs]
      refine .keep hs ((ih locals).congr fun k _ => ?_)
      simp only [instTable, hs]
    · simp only [inlineInstructions, hs]
      refine .site hs ?_ ((ih _).congr fun k hk => ?_)
      · simp [instTable, hs]
      · simp [instTable, hs, hk.ne, shiftLocals]

theorem length_inlineBlocks (bs : List BasicBlock) (locals : List MirLocal) :
    (inlineBlocks self candidates bs locals).2.length =
      locals.length + (bs.map fun b => growth self candidates b.instructions).sum := by
  induction bs generalizing locals with
  | nil => rfl
  | cons b bs ih =>
    simp only [inlineBlocks, ih, length_inlineInstructions, List.map_cons, List.sum_cons]
    omega

/-- Block by block: the same id and terminator, and inlined instructions. -/
theorem find?_inlineBlocks (self : String) (candidates : List (String × InlineCandidate))
    (bs : List BasicBlock) (locals : List MirLocal) (id : BlockId) :
    (inlineBlocks self candidates bs locals).1.find? (fun b => b.id == id) = none ∧
        bs.find? (fun b => b.id == id) = none ∨
      ∃ b insts', bs.find? (fun b => b.id == id) = some b ∧
        (inlineBlocks self candidates bs locals).1.find? (fun b => b.id == id) =
          some { b with instructions := insts' } ∧
        Inlined self candidates (fun k => blockTable self candidates bs locals.length (id, k))
          b.instructions insts' := by
  induction bs generalizing locals with
  | nil => exact .inl ⟨rfl, rfl⟩
  | cons b bs ih =>
    by_cases hid : b.id = id
    · refine .inr ⟨b, (inlineInstructions self candidates b.instructions locals).1, by simp [hid],
        by simp [inlineBlocks, hid], ?_⟩
      refine (inlined_inlineInstructions b.instructions locals).congr fun k _ => ?_
      simp only [blockTable, hid, if_true]
    · have htail := ih (inlineInstructions self candidates b.instructions locals).2
      simpa [inlineBlocks, blockTable, hid, length_inlineInstructions] using htail

/-- The ids are `0, …, m - 1`. -/
abbrev Numbered (locals : List MirLocal) : Prop :=
  (locals.map MirLocal.id).Perm (List.range locals.length)

variable {locals : List MirLocal}

/-- Declaring a copy of `locals` under fresh ids keeps the numbering. -/
theorem perm_shiftLocals {copied : List MirLocal} (h : Numbered locals) (hc : Numbered copied) :
    Numbered (locals ++ shiftLocals locals.length copied) := by
  have hshift : (shiftLocals locals.length copied).map MirLocal.id =
      (copied.map MirLocal.id).map (locals.length + ·) := by
    simp [shiftLocals, Nat.add_comm]
  rw [Numbered, List.map_append, hshift, List.length_append, List.range_add]
  simp only [shiftLocals, List.length_map]
  exact h.append (hc.map _)

section

variable
  (hc : ∀ inst dest c args, siteOf self candidates inst = some (dest, c, args) → Numbered c.locals)

include hc

theorem perm_inlineInstructions (insts : List Instruction) (h : Numbered locals) :
    Numbered (inlineInstructions self candidates insts locals).2 := by
  induction insts generalizing locals with
  | nil => exact h
  | cons inst insts ih =>
    rcases hs : siteOf self candidates inst with _ | ⟨dest, c, args⟩
    · simp only [inlineInstructions, hs]
      exact ih h
    · simp only [inlineInstructions, hs]
      exact ih (perm_shiftLocals h (hc _ _ _ _ hs))

theorem perm_inlineBlocks (bs : List BasicBlock) (h : Numbered locals) :
    Numbered (inlineBlocks self candidates bs locals).2 := by
  induction bs generalizing locals with
  | nil => exact h
  | cons b bs ih =>
    simp only [inlineBlocks]
    exact ih (perm_inlineInstructions hc b.instructions h)

end

end Table

/-- Where the copies for the calls of a function are. -/
def siteTable (candidates : List (String × InlineCandidate)) (f : MirFunction) :
    Site → Option (ℕ × ℕ) :=
  blockTable f.name candidates f.blocks f.locals.length

/-! ## What the pass is given -/

/-- Function names are distinct, locals have the ids `0, …, n - 1`, calls have the callee's arity,
exactly the void functions return without a value, and locals are written before they are used. -/
structure InlineReady (M : MirModule) : Prop where
  names : (M.functions.map MirFunction.name).Nodup
  ids : ∀ f ∈ M.functions, (f.locals.map MirLocal.id).Perm (List.range f.locals.length)
  params : ∀ f ∈ M.functions, ∀ x ∈ f.paramLocals, x < f.locals.length
  dests : ∀ f ∈ M.functions, ∀ b ∈ f.blocks, ∀ inst ∈ b.instructions, ∀ x, inst.dest = some x →
    x < f.locals.length
  arity : ∀ f ∈ M.functions, ∀ b ∈ f.blocks, ∀ inst ∈ b.instructions, ∀ dest g b' args,
    M.callOf inst = some (dest, g, b', args) → args.length = g.paramLocals.length
  returns : ∀ f ∈ M.functions, ∀ b ∈ f.blocks, ∀ op, b.terminator = .ret op →
    (op = none ↔ f.isVoid = true)
  defined : ∀ f ∈ M.functions, DefinedBeforeUse M f

variable {f : MirFunction}

section Candidates

variable {M : MirModule} {threshold : ℕ}

theorem find?_name {fs : List MirFunction} (hfs : (fs.map MirFunction.name).Nodup)
    {g : MirFunction} (hg : g ∈ fs) : fs.find? (fun f => f.name == g.name) = some g := by
  induction fs with
  | nil => cases hg
  | cons f fs ih =>
    rw [List.map_cons, List.nodup_cons] at hfs
    rcases List.mem_cons.mp hg with rfl | hg
    · simp
    · have hne : f.name ≠ g.name := fun h => hfs.1 (h ▸ List.mem_map_of_mem hg)
      simpa [List.find?_cons, hne] using ih hfs.2 hg

theorem candidateOf_eq_some {c : InlineCandidate} (h : candidateOf threshold f = some c) :
    ∃ b op, f.blocks = [b] ∧ b.terminator = .ret op ∧ containsCall b.instructions = false ∧
      c = ⟨b.instructions, f.locals, f.paramLocals, op⟩ := by
  simp only [candidateOf] at h
  split at h <;> try contradiction
  rename_i b hb
  split at h <;> try contradiction
  split at h <;> try contradiction
  rename_i hcall
  split at h <;> try contradiction
  rename_i op hterm
  exact ⟨b, op, hb, hterm, Bool.eq_false_iff.mpr hcall, (Option.some.inj h).symm⟩

/-- A call the pass replaces is a call of a single-block function of the module. -/
theorem siteOf_eq_some (hM : InlineReady M) {self : String} {inst : Instruction} {dest : LocalId}
    {c : InlineCandidate} (h : siteOf self (findCandidates M threshold) inst = some (dest, c, args))
    :
    ∃ g b op, g ∈ M.functions ∧ g.blocks = [b] ∧ b.terminator = .ret op ∧
      containsCall b.instructions = false ∧ c = ⟨b.instructions, g.locals, g.paramLocals, op⟩ ∧
      M.callOf inst = some (dest, g, b, args) := by
  simp only [siteOf] at h
  split at h
  · rename_i dest' func args'
    split at h
    · cases h
    · obtain ⟨c', hc', heq⟩ := Option.map_eq_some_iff.mp h
      simp only [Prod.mk.injEq] at heq
      obtain ⟨rfl, rfl, rfl⟩ := heq
      obtain ⟨⟨name, c''⟩, hfind, rfl⟩ := Option.map_eq_some_iff.mp hc'
      have hname : name = func := by simpa using List.find?_some hfind
      have hmem := List.mem_reverse.mp (List.mem_of_find?_eq_some hfind)
      obtain ⟨g, hg, hgc⟩ := List.mem_filterMap.mp hmem
      obtain ⟨c₁, hc₁, heq⟩ := Option.map_eq_some_iff.mp hgc
      simp only [Prod.mk.injEq] at heq
      obtain ⟨rfl, rfl⟩ := heq
      obtain ⟨b, op, hb, hterm, hcall, hceq⟩ := candidateOf_eq_some hc₁
      refine ⟨g, b, op, hg, hb, hterm, hcall, hceq, ?_⟩
      simp [MirModule.callOf, MirModule.findBody, ← hname, find?_name hM.names hg, hb]
  · cases h

/-- A candidate makes no call. -/
theorem callOf_of_containsCall (h : containsCall insts = false) {inst : Instruction}
    (hinst : inst ∈ insts) : M.callOf inst = none := by
  have hno := List.any_eq_false.mp h inst hinst
  simp only [MirModule.callOf]
  split
  · simp at hno
  · rfl

theorem inlineInstructions_nil (self : String) (insts : List Instruction)
    (locals : List MirLocal) : inlineInstructions self [] insts locals = (insts, locals) := by
  have hnone : ∀ inst, siteOf self [] inst = none := by
    intro inst
    simp only [siteOf]
    split
    · split <;> rfl
    · rfl
  induction insts with
  | nil => rfl
  | cons inst insts ih => simp only [inlineInstructions, hnone, ih]

theorem inlineBlocks_nil (self : String) (bs : List BasicBlock) (locals : List MirLocal) :
    inlineBlocks self [] bs locals = (bs, locals) := by
  induction bs with
  | nil => rfl
  | cons b bs ih => simp only [inlineBlocks, inlineInstructions_nil, ih]

/-- Without candidates the pass stops early, which changes nothing. -/
theorem functions_inlineFunctions (M : MirModule) (threshold : ℕ) :
    (inlineFunctions M threshold).functions =
      M.functions.map (inlineCallsInFunction (findCandidates M threshold)) := by
  simp only [inlineFunctions]
  split
  · rename_i hnil
    rw [List.isEmpty_iff.mp hnil]
    have hid : inlineCallsInFunction [] = id := by
      funext f
      simp [inlineCallsInFunction, inlineBlocks_nil]
    simp [hid]
  · rfl

end Candidates

/-! ## The simulation -/

/-- The call about to be made, if it is one that the pass replaces, has not been made before in
this activation with a callee that took the address of one of its locals. -/
def SiteSafe {V W : Type} (candidates : List (String × InlineCandidate)) (c : Config V W) : Prop :=
  ∀ inst rest, c.top.rest = inst :: rest → siteOf c.top.fn.name candidates inst ≠ none →
    ∀ p ∈ c.top.calls, p.1 = (c.top.block, rest.length) → ∀ x, p.2 x = none

namespace Inline

variable {V W : Type}

section Relations

variable (M : MirModule) (candidates : List (String × InlineCandidate))

/-- The locals a function had before the pass. -/
def own (f : MirFunction) : Set LocalId := {x | x < f.locals.length}

/-- A frame and the frame with inlined calls: the registers in `D` agree, the rest of the code needs
no more than those in `E`, and the copies that have not been left with address-taken locals have
none. The copies for the calls in `X` are left out of account. -/
structure FrameRel (D E : Set LocalId) (X : Set Site) (fr fr' : Frame V) : Prop where
  fn : fr'.fn = inlineCallsInFunction candidates fr.fn
  mem : fr.fn ∈ M.functions
  term : fr'.term = fr.term
  code : Inlined fr.fn.name candidates (fun k => siteTable candidates fr.fn (fr.block, k))
    fr.rest fr'.rest
  part : ∃ b ∈ fr.fn.blocks, fr.rest <:+ b.instructions
  defined : CodeDefined M fr.fn E fr.rest fr.term
  bound : E ⊆ own fr.fn
  act : Renames id D (own fr.fn) fr.act fr'.act
  clean : ∀ s ∉ X, ∀ off len, siteTable candidates fr.fn s = some (off, len) →
    (∀ p ∈ fr.calls, p.1 = s → ∀ x, p.2 x = none) → ∀ x < len, fr'.act.slots (x + off) = none

/-- The frames that wait below an activation of `g`. -/
inductive StackRel :
    MirFunction → List (Frame V × LocalId) → List (Frame V × LocalId) → Prop
  | nil (g : MirFunction) : StackRel g [] []
  | cons {g : MirFunction} {D : Set LocalId} {fr fr' : Frame V} {dest : LocalId}
    {stack stack' : List (Frame V × LocalId)}
    (hframe : FrameRel M candidates D (D ∪ {x | x ∈ g.writes dest}) ∅ fr fr')
    (hstack : StackRel fr.fn stack stack') :
    StackRel g ((fr, dest) :: stack) ((fr', dest) :: stack')

/-- Both machines execute corresponding code of corresponding functions. -/
structure Running (c c' : Config V W) : Prop where
  mem : c'.mem = c.mem
  top : ∃ D, FrameRel M candidates D D ∅ c.top c'.top
  stack : StackRel M candidates c.top.fn c.stack c'.stack

/-- The first machine executes a callee, the second its copy from local `off` on, with the code
`r'` to follow. -/
structure Inside (c c' : Config V W) (caller : Frame V) (dest : LocalId)
    (below : List (Frame V × LocalId)) (off : ℕ) (r' : List Instruction) (op : Option Operand)
    (D E : Set LocalId) : Prop where
  mem : c'.mem = c.mem
  stack : c.stack = (caller, dest) :: below
  callee : c.top.fn ∈ M.functions
  term : c.top.term = .ret op
  returns : op = none ↔ c.top.fn.isVoid = true
  code : c'.top.rest = c.top.rest.map (remapInstruction · off) ++ (assignReturn dest off op ++ r')
  noCall : containsCall c.top.rest = false
  dests : ∀ inst ∈ c.top.rest, ∀ x, inst.dest = some x → x ∈ own c.top.fn
  defined : CodeDefined M c.top.fn E c.top.rest c.top.term
  bound : E ⊆ own c.top.fn
  copy : Renames (· + off) E (own c.top.fn) c.top.act c'.top.act
  site : siteTable candidates caller.fn caller.site = some (off, c.top.fn.locals.length)
  frame : FrameRel M candidates D (D ∪ {x | x ∈ c.top.fn.writes dest}) {caller.site} caller
    { c'.top with rest := r' }
  waiting : StackRel M candidates caller.fn below c'.stack

end Relations

section Steps

variable {I : Interp V W ℕ} {M : MirModule} {threshold : ℕ}

theorem callOf_rename_of_containsCall (M : MirModule) (h : containsCall insts = false)
    {inst : Instruction} (hinst : inst ∈ insts) (ρ : LocalId → LocalId) :
    M.callOf (inst.rename ρ) = none := by
  have hno := List.any_eq_false.mp h inst hinst
  rcases inst with ⟨dest, rv⟩ | _
  case assign =>
    rcases rv with _ | _ | _ | _ | _ <;> first
      | rfl
      | simp at hno
  all_goals rfl

variable {fr' : Frame V}

variable {fr : Frame V}

/-- The relation between waiting frames survives what happens to other locals. -/
theorem FrameRel.of_act {candidates : List (String × InlineCandidate)} {D E : Set LocalId}
    {X : Set Site} (h : FrameRel M candidates D E X fr fr') {b' : Activation V}
    (hregs : ∀ x ∈ own fr.fn, b'.regs x = fr'.act.regs x)
    (hslots : ∀ x ∈ own fr.fn, b'.slots x = fr'.act.slots x) (hD : D ⊆ own fr.fn)
    (hclean : ∀ s ∉ X, ∀ off len, siteTable candidates fr.fn s = some (off, len) → ∀ x < len,
      b'.slots (x + off) = fr'.act.slots (x + off)) :
    FrameRel M candidates D E X fr { fr' with act := b' } where
  fn := h.fn
  mem := h.mem
  term := h.term
  code := h.code
  part := h.part
  defined := h.defined
  bound := h.bound
  act := ⟨fun x hx hnone => (hregs x (hD hx)).trans (h.act.regs x hx hnone),
    fun x hx => (hslots x hx).trans (h.act.slots x hx)⟩
  clean s hs off len hT hcalls x hx :=
    (hclean s hs off len hT x hx).trans (h.clean s hs off len hT hcalls x hx)

/-- The copy of a callee changes neither the caller's locals nor another copy. -/
theorem FrameRel.of_execIn {candidates : List (String × InlineCandidate)} {D E : Set LocalId}
    {caller : Frame V} (h : FrameRel M candidates D E {caller.site} caller fr') (hDE : D ⊆ E)
    {off : ℕ} (hsite : siteTable candidates caller.fn caller.site = some (off, len))
    {inst : Instruction} (haddr : ∀ x ∈ inst.addressed, x < len) {m n : Memory W}
    {b' : Activation V} (hexec : execIn I (fr'.act, m) (inst.rename (· + off)) = .ok (b', n)) :
    FrameRel M candidates D E {caller.site} caller { fr' with act := b' } := by
  obtain ⟨hregs, hslots⟩ := execIn_frame hexec
  have hoff : caller.fn.locals.length ≤ off := (blockTable_bounds hsite).1
  have hown : ∀ x ∈ own caller.fn, x < off := fun x hx => Nat.lt_of_lt_of_le hx hoff
  have hnotMem : ∀ x, (∀ y < len, x ≠ y + off) → x ∉ (inst.rename (· + off)).addressed := by
    intro x hx hmem
    rw [Instruction.addressed_rename] at hmem
    obtain ⟨y, hy, rfl⟩ := List.mem_map.mp hmem
    exact hx y (haddr y hy) rfl
  refine h.of_act (fun x hx => hregs x fun hd => ?_) (fun x hx => hslots x (hnotMem x ?_))
    (hDE.trans h.bound) fun s hs off' len' hT x hx => hslots _ (hnotMem _ ?_)
  · rw [Instruction.dest_rename] at hd
    obtain ⟨d, -, rfl⟩ := Option.map_eq_some_iff.mp hd
    exact absurd (hown _ hx) (Nat.not_lt.mpr (Nat.le_add_left _ _))
  · rintro y - rfl
    exact absurd (hown _ hx) (Nat.not_lt.mpr (Nat.le_add_left _ _))
  · intro y hy heq
    have hne : s ≠ caller.site := fun h => hs h
    have := blockTable_disjoint hne hT hsite
    omega

theorem Inside.step_inst (M' : MirModule) {candidates : List (String × InlineCandidate)}
    {c c' : Config V W} {caller : Frame V} {dest : LocalId} {below : List (Frame V × LocalId)}
    {off : ℕ} {r' : List Instruction} {op : Option Operand} {D E : Set LocalId}
    (h : Inside M candidates c c' caller dest below off r' op D E) {inst : Instruction}
    {r : List Instruction} (hr : c.top.rest = inst :: r) :
    (∀ o, step I M c = .inr o → step I M' c' = .inr o) ∧
      ∀ d, step I M c = .inl d → ∃ d' E', step I M' c' = .inl d' ∧
        Inside M candidates d d' caller dest below off r' op D E' := by
  have hmem : inst ∈ c.top.rest := hr ▸ List.mem_cons_self
  have hnone : M.callOf inst = none := callOf_of_containsCall h.noCall hmem
  have hnone' := callOf_rename_of_containsCall M' h.noCall hmem (· + off)
  have hdef := h.defined
  rw [hr] at hdef
  have huses : ∀ x ∈ inst.uses, x ∈ E ∧ x ∈ own c.top.fn := fun x hx =>
    ⟨hdef.uses.1 x hx, h.bound (hdef.uses.1 x hx)⟩
  have hdests := fun x hx => h.dests inst hmem x hx
  have hr' : c'.top.rest = inst.rename (· + off) ::
      (r.map (remapInstruction · off) ++ (assignReturn dest off op ++ r')) := by
    rw [h.code, hr]
    rfl
  have hρ : Function.Injective (· + off) := fun x y hxy => Nat.add_right_cancel hxy
  simp only [step, hr, hr', hnone, hnone', h.mem]
  rcases h.copy.execIn I (m := c.mem) hρ huses hdests with ⟨e, he, he'⟩ | ⟨a, a', n, ha, ha', hact⟩
  · simp only [he, he']
    exact ⟨fun o ho => ho, (by rintro _ ⟨⟩)⟩
  · simp only [ha, ha']
    refine ⟨(by rintro _ ⟨⟩), fun d hd => ⟨_, E ∪ {x | x ∈ M.defs inst}, rfl, ?_⟩⟩
    obtain rfl := Sum.inl.inj hd
    have hdefs : {x | x ∈ M.defs inst} = {x | x ∈ inst.dest} := by
      ext x
      simp [MirModule.defs, hnone]
    refine ⟨rfl, h.stack, h.callee, h.term, h.returns, rfl, ?_, ?_, hdef.tail, ?_, ?_, h.site, ?_,
      h.waiting⟩
    · have := h.noCall
      rw [hr] at this
      exact (Bool.or_eq_false_iff.mp this).2
    · exact fun i hi => h.dests i (hr ▸ List.mem_cons_of_mem _ hi)
    · rw [hdefs]
      exact Set.union_subset h.bound hdests
    · rw [hdefs]
      exact hact
    · exact h.frame.of_execIn Set.subset_union_left h.site
        (fun x hx => (huses x (List.mem_append_right _ hx)).2) ha'

/-- Back in the caller: if the callee took no address, neither did its copy. -/
theorem FrameRel.leave {candidates : List (String × InlineCandidate)} {D E : Set LocalId} {s : Site}
    {caller : Frame V} (h : FrameRel M candidates D E {s} caller fr') {off : ℕ}
    (hsite : siteTable candidates caller.fn s = some (off, len)) {slots : LocalId → Option ℕ}
    (hslots : ∀ x < len, fr'.act.slots (x + off) = slots x) :
    FrameRel M candidates D E ∅ { caller with calls := (s, slots) :: caller.calls } fr' where
  fn := h.fn
  mem := h.mem
  term := h.term
  code := h.code
  part := h.part
  defined := h.defined
  bound := h.bound
  act := h.act
  clean := by
    intro s' _ off' len' hT hcalls x hx
    by_cases hs : s' = s
    · subst hs
      obtain ⟨rfl, rfl⟩ := Prod.mk.inj (Option.some.inj (hT.symm.trans hsite))
      exact (hslots x hx).trans (hcalls _ List.mem_cons_self rfl x)
    · exact h.clean s' hs off' len' hT (fun p hp => hcalls p (List.mem_cons_of_mem _ hp)) x hx

/-- Storing the same value in a local of the caller. -/
theorem FrameRel.write {candidates : List (String × InlineCandidate)} {D : Set LocalId}
    {X : Set Site} {dest : LocalId} (h : FrameRel M candidates D (D ∪ {dest}) X fr fr')
    (m : Memory W) (v : V) :
    (fr'.act.write I m dest v).2 = (fr.act.write I m dest v).2 ∧
      FrameRel M candidates (D ∪ {dest}) (D ∪ {dest}) X
        { fr with act := (fr.act.write I m dest v).1 }
        { fr' with act := (fr'.act.write I m dest v).1 } := by
  have hdest : dest ∈ own fr.fn := h.bound (Set.mem_union_right _ rfl)
  obtain ⟨hmem, hact⟩ := h.act.write I Function.injective_id hdest m v
  refine ⟨hmem, h.fn, h.mem, h.term, h.code, h.part, h.defined, h.bound, hact.mono ?_, h.clean⟩
  rintro x (hx | hx)
  · exact Set.mem_insert_of_mem _ hx
  · exact hx ▸ Set.mem_insert _ _

/-- The callee returns: its copy ends with a copy of the result, or with nothing. -/
theorem Inside.step_return (M' : MirModule) {candidates : List (String × InlineCandidate)}
    {c c' : Config V W} {caller : Frame V} {dest : LocalId} {below : List (Frame V × LocalId)}
    {off : ℕ} {r' : List Instruction} {op : Option Operand} {D E : Set LocalId}
    (h : Inside M candidates c c' caller dest below off r' op D E) (hr : c.top.rest = []) :
    ∃ d, step I M c = .inl d ∧ d.top.rest = caller.rest ∧
      (Running M candidates d c' ∨
        ∃ d', step I M' c' = .inl d' ∧ Running M candidates d d') := by
  have hdef := h.defined
  rw [hr] at hdef
  have hcode : c'.top.rest = assignReturn dest off op ++ r' := by
    rw [h.code, hr]
    rfl
  rcases op with _ | o
  · have hvoid := h.returns.mp rfl
    have hv : c.top.result I c.mem = some none := by
      simp only [Frame.result, h.term, hvoid, if_true]
    have hframe := h.frame
    simp only [MirFunction.writes, hvoid, if_true, List.not_mem_nil, Set.ofPred_false,
      Set.union_empty] at hframe
    refine ⟨_, step_to_caller hr hv h.stack, rfl, .inl ⟨h.mem, ⟨D, ?_⟩, h.waiting⟩⟩
    have htop : { c'.top with rest := r' } = c'.top := by
      rw [← show c'.top.rest = r' from hcode]
    exact htop ▸ hframe.leave h.site h.copy.slots
  · have hvoid : c.top.fn.isVoid = false := by
      rw [← Bool.not_eq_true]
      exact fun hv => absurd (h.returns.mpr hv) (by simp)
    have hv : c.top.result I c.mem = some (some (c.top.act.read I c.mem o)) := by
      simp only [Frame.result, h.term, hvoid, Bool.false_eq_true, if_false, Option.map_some]
    have hread : c'.top.act.read I c.mem (remapOperand o off) = c.top.act.read I c.mem o := by
      refine h.copy.read I fun x hx => ?_
      have hx' : x ∈ E := hdef.uses o (by simp [h.term, MirFunction.needed, hvoid]) x hx
      exact ⟨hx', h.bound hx'⟩
    have hframe := h.frame
    simp only [MirFunction.writes, hvoid, Bool.false_eq_true, if_false, List.mem_singleton,
      Set.ofPred_eq_eq_singleton] at hframe
    obtain ⟨hmem, hwrite⟩ := hframe.write (I := I) c.mem (c.top.act.read I c.mem o)
    have hstep' : step I M' c' = .inl ⟨{ c'.top with
        rest := r'
        act := (c'.top.act.write I c.mem dest (c.top.act.read I c.mem o)).1 }, c'.stack,
        (c'.top.act.write I c.mem dest (c.top.act.read I c.mem o)).2⟩ := by
      simp only [step, hcode, assignReturn, List.singleton_append, MirModule.callOf, execIn_use,
        h.mem, hread]
    have hleave := hwrite.leave h.site h.copy.slots
    exact ⟨_, step_to_caller hr hv h.stack, rfl, .inr ⟨_, hstep', hmem, ⟨_, hleave⟩, h.waiting⟩⟩

/-- The first block of a function, and what the pass makes of it. -/
theorem head?_inlineCallsInFunction (candidates : List (String × InlineCandidate)) {b : BasicBlock}
    (h : f.blocks.head? = some b) :
    ∃ insts', (inlineCallsInFunction candidates f).blocks.head? =
        some { b with instructions := insts' } ∧
      Inlined f.name candidates (fun k => siteTable candidates f (b.id, k)) b.instructions
        insts' := by
  obtain ⟨bs, hbs⟩ := List.head?_eq_some_iff.mp h
  refine ⟨(inlineInstructions f.name candidates b.instructions f.locals).1, ?_, ?_⟩
  · simp [inlineCallsInFunction, hbs, inlineBlocks]
  · refine (inlined_inlineInstructions b.instructions f.locals).congr fun k _ => ?_
    simp [siteTable, hbs, blockTable]

theorem findBody_inlineFunctions (M : MirModule) (threshold : ℕ) (name : String) :
    (M.findBody name = none ∧ (inlineFunctions M threshold).findBody name = none) ∨
      ∃ f b insts', M.findBody name = some (f, b) ∧
        (inlineFunctions M threshold).findBody name =
          some (inlineCallsInFunction (findCandidates M threshold) f,
            { b with instructions := insts' }) ∧
        Inlined f.name (findCandidates M threshold)
          (fun k => siteTable (findCandidates M threshold) f (b.id, k)) b.instructions insts' := by
  have hfind : (inlineFunctions M threshold).functions.find? (fun f => f.name == name) =
      (M.functions.find? fun f => f.name == name).map
        (inlineCallsInFunction (findCandidates M threshold)) := by
    simp only [functions_inlineFunctions, List.find?_map, Function.comp_def, inlineCallsInFunction]
  simp only [MirModule.findBody, hfind]
  rcases hf : M.functions.find? fun f => f.name == name with _ | f
  · exact .inl (by simp [hf])
  · rcases hhead : f.blocks.head? with _ | b
    · have hhead' : (inlineCallsInFunction (findCandidates M threshold) f).blocks.head? = none := by
        rw [List.head?_eq_none_iff] at hhead ⊢
        simp [inlineCallsInFunction, hhead, inlineBlocks]
      exact .inl (by simp [hf, hhead, hhead'])
    · obtain ⟨insts', hhead', hcode⟩ :=
        head?_inlineCallsInFunction (findCandidates M threshold) hhead
      exact .inr ⟨f, b, insts', by simp [hf, hhead], by simp [hf, hhead'], hcode⟩

theorem callOf_inlineFunctions (M : MirModule) (threshold : ℕ) (inst : Instruction) :
    (M.callOf inst = none ∧ (inlineFunctions M threshold).callOf inst = none) ∨
      ∃ name dest f b insts' args, inst = .assign dest (.call name args) ∧
        M.findBody name = some (f, b) ∧ M.callOf inst = some (dest, f, b, args) ∧
        (inlineFunctions M threshold).callOf inst =
          some (dest, inlineCallsInFunction (findCandidates M threshold) f,
            { b with instructions := insts' }, args) ∧
        Inlined f.name (findCandidates M threshold)
          (fun k => siteTable (findCandidates M threshold) f (b.id, k)) b.instructions insts' := by
  simp only [MirModule.callOf]
  split
  · rename_i dest name args
    rcases findBody_inlineFunctions M threshold name with ⟨h, h'⟩ | ⟨f, b, insts', h, h', hcode⟩
    · exact .inl (by simp [h, h'])
    · exact .inr ⟨name, dest, f, b, insts', args, rfl, h, by simp [h], by simp [h'], hcode⟩
  · exact .inl ⟨rfl, rfl⟩

/-- A new activation. -/
theorem FrameRel.enter (hM : InlineReady M) {name : String} {b : BasicBlock}
    {insts' : List Instruction} (hbody : M.findBody name = some (f, b))
    (hcode : Inlined f.name (findCandidates M threshold)
      (fun k => siteTable (findCandidates M threshold) f (b.id, k)) b.instructions insts')
    (vals : List V) :
    FrameRel M (findCandidates M threshold) {x | x ∈ f.paramLocals} {x | x ∈ f.paramLocals} ∅
      (Frame.enter I f b vals)
      (Frame.enter I (inlineCallsInFunction (findCandidates M threshold) f)
        { b with instructions := insts' } vals) := by
  obtain ⟨hmem, rfl, hhead⟩ := findBody_eq_some hbody
  have hfind : f.findBlock b.id = some b := by
    obtain ⟨bs, hbs⟩ := List.head?_eq_some_iff.mp hhead
    simp [MirFunction.findBlock, hbs]
  exact
    { fn := rfl
      mem := hmem
      term := rfl
      code := hcode
      part := ⟨b, List.mem_of_mem_head? hhead, List.suffix_rfl⟩
      defined := .of_findBlock (hM.defined f hmem) (.entry hhead) hfind
      bound := fun x hx => hM.params f hmem x hx
      act := ⟨fun _ _ _ => rfl, fun _ _ => rfl⟩
      clean := fun _ _ _ _ _ _ _ _ => rfl }

theorem FrameRel.read {candidates : List (String × InlineCandidate)} {D E : Set LocalId}
    {X : Set Site} (h : FrameRel M candidates D E X fr fr') (hDE : D ⊆ E) (m : Memory W)
    {op : Operand} (hop : ∀ x ∈ op.locals, x ∈ D) : fr'.act.read I m op = fr.act.read I m op := by
  have hread : fr'.act.read I m (op.rename id) = fr.act.read I m op :=
    h.act.read I fun x hx => ⟨hop x hx, h.bound (hDE (hop x hx))⟩
  rwa [Operand.rename_id] at hread

theorem suffix_of_cons {inst : Instruction} {r : List Instruction}
    (h : ∃ b ∈ f.blocks, inst :: r <:+ b.instructions) : ∃ b ∈ f.blocks, r <:+ b.instructions := by
  obtain ⟨b, hb, hsuf⟩ := h
  exact ⟨b, hb, (List.suffix_cons inst r).trans hsuf⟩

theorem writes_subset_own (g : MirFunction) {dest : LocalId} (h : dest ∈ own f) :
    {x | x ∈ g.writes dest} ⊆ own f := by
  intro x hx
  have hx' : x ∈ g.writes dest := hx
  simp only [MirFunction.writes] at hx'
  split at hx'
  · cases hx'
  · exact List.mem_singleton.mp hx' ▸ h

/-- An instruction the pass keeps. -/
theorem Running.step_keep (hM : InlineReady M) {c c' : Config V W} {D : Set LocalId}
    (hmem : c'.mem = c.mem)
    (htop : FrameRel M (findCandidates M threshold) D D ∅ c.top c'.top)
    (hstack : StackRel M (findCandidates M threshold) c.top.fn c.stack c'.stack)
    {inst : Instruction} {r r' : List Instruction} (hr : c.top.rest = inst :: r)
    (hr' : c'.top.rest = inst :: r')
    (hcode : Inlined c.top.fn.name (findCandidates M threshold)
      (fun k => siteTable (findCandidates M threshold) c.top.fn (c.top.block, k)) r r') :
    (∀ o, step I M c = .inr o → step I (inlineFunctions M threshold) c' = .inr o) ∧
      ∀ d, step I M c = .inl d → ∃ d', step I (inlineFunctions M threshold) c' = .inl d' ∧
        Running M (findCandidates M threshold) d d' := by
  have hdef := htop.defined
  rw [hr] at hdef
  have hpart := htop.part
  rw [hr] at hpart
  obtain ⟨b₀, hb₀, hsuf⟩ := hpart
  have hinst : inst ∈ b₀.instructions := hsuf.subset List.mem_cons_self
  have hdest : ∀ x, inst.dest = some x → x ∈ own c.top.fn := fun x hx =>
    hM.dests c.top.fn htop.mem b₀ hb₀ inst hinst x hx
  have huses : ∀ x ∈ inst.uses, x ∈ D ∧ x ∈ own c.top.fn := fun x hx =>
    ⟨hdef.uses.1 x hx, htop.bound (hdef.uses.1 x hx)⟩
  have htail : ∃ b ∈ c.top.fn.blocks, r <:+ b.instructions := suffix_of_cons ⟨b₀, hb₀, hsuf⟩
  simp only [step, hr, hr']
  rcases callOf_inlineFunctions M threshold inst with
    ⟨hnone, hnone'⟩ | ⟨name, dest, f, b, insts', args, rfl, hbody, hcall, hcall', hb⟩
  · rw [hnone, hnone', hmem]
    have hdefs : {x | x ∈ M.defs inst} = {x | x ∈ inst.dest} := by
      ext x
      simp [MirModule.defs, hnone]
    rcases htop.act.execIn I (m := c.mem) Function.injective_id huses hdest with
      ⟨e, he, he'⟩ | ⟨a, a', n, ha, ha', hact⟩
    · rw [Instruction.rename_id] at he'
      simp only [he, he']
      exact ⟨fun o ho => ho, (by rintro _ ⟨⟩)⟩
    · rw [Instruction.rename_id] at ha'
      simp only [ha, ha']
      refine ⟨(by rintro _ ⟨⟩), fun d hd => ⟨_, rfl, ?_⟩⟩
      obtain rfl := Sum.inl.inj hd
      have hbound : D ∪ {x | x ∈ M.defs inst} ⊆ own c.top.fn := by
        rw [hdefs]
        exact Set.union_subset htop.bound hdest
      rw [← hdefs] at hact
      refine ⟨rfl, ⟨_, htop.fn, htop.mem, htop.term, hcode, htail, hdef.tail, hbound, hact, ?_⟩,
        hstack⟩
      -- the copies lie above the locals whose address the instruction may take
      intro s hs off len hT hcalls x hx
      have hoff : c.top.fn.locals.length ≤ off := (blockTable_bounds hT).1
      have hnot : x + off ∉ inst.addressed := fun hmem =>
        absurd (huses _ (List.mem_append_right _ hmem)).2
          (Nat.not_lt.mpr (hoff.trans (Nat.le_add_left _ _)))
      exact ((execIn_frame ha').2 _ hnot).trans (htop.clean s hs off len hT hcalls x hx)
  · simp only [hcall, hcall']
    refine ⟨(by rintro _ ⟨⟩), fun d hd => ⟨_, rfl, ?_⟩⟩
    obtain rfl := Sum.inl.inj hd
    have hvals : args.map (c'.top.act.read I c'.mem) = args.map (c.top.act.read I c.mem) := by
      rw [hmem]
      refine List.map_congr_left fun op hop => htop.read subset_rfl c.mem fun x hx => ?_
      exact (huses x (List.mem_append_left _ (List.mem_flatMap.mpr ⟨op, hop, hx⟩))).1
    rw [hvals]
    have hafter := hdef.tail
    simp only [MirModule.defs, hcall] at hafter
    have hbound : D ∪ {x | x ∈ f.writes dest} ⊆ own c.top.fn :=
      Set.union_subset htop.bound (writes_subset_own f (hdest dest rfl))
    exact ⟨hmem, ⟨_, FrameRel.enter hM hbody hb _⟩,
      .cons ⟨htop.fn, htop.mem, htop.term, hcode, htail, hafter, hbound, htop.act, htop.clean⟩
        hstack⟩

/-- A callee that was not inlined has returned. -/
theorem FrameRel.resume {candidates : List (String × InlineCandidate)} {D : Set LocalId}
    {g : MirFunction} {dest : LocalId}
    (h : FrameRel M candidates D (D ∪ {x | x ∈ g.writes dest}) ∅ fr fr') {v : Option V}
    (hv : g.isVoid = true ∧ v = none ∨ g.isVoid = false ∧ ∃ x, v = some x) (a a' : Activation V)
    (m : Memory W) :
    (fr'.resume I a' dest v m).2 = (fr.resume I a dest v m).2 ∧
      ∃ E, FrameRel M candidates E E ∅ (fr.resume I a dest v m).1 (fr'.resume I a' dest v m).1 := by
  -- a longer history only makes the condition of `clean` stronger
  have hcalls : ∀ {D E : Set LocalId} {fr fr' : Frame V}, FrameRel M candidates D E ∅ fr fr' →
      FrameRel M candidates D E ∅ { fr with calls := (fr.site, a.slots) :: fr.calls }
        { fr' with calls := (fr'.site, a'.slots) :: fr'.calls } := fun h =>
    ⟨h.fn, h.mem, h.term, h.code, h.part, h.defined, h.bound, h.act,
      fun s hs off len hT hc => h.clean s hs off len hT fun p hp => hc p (List.mem_cons_of_mem _ hp)⟩
  rcases hv with ⟨hvoid, rfl⟩ | ⟨hvoid, x, rfl⟩
  · simp only [MirFunction.writes, hvoid, if_true, List.not_mem_nil, Set.ofPred_false,
      Set.union_empty] at h
    exact ⟨rfl, D, hcalls h⟩
  · simp only [MirFunction.writes, hvoid, Bool.false_eq_true, if_false, List.mem_singleton,
      Set.ofPred_eq_eq_singleton] at h
    obtain ⟨hmem, hwrite⟩ := h.write (I := I) m x
    exact ⟨hmem, _, hcalls hwrite⟩

section

variable {c c' : Config V W} {D : Set LocalId} (hM : InlineReady M) (hmem : c'.mem = c.mem)
  (htop : FrameRel M (findCandidates M threshold) D D ∅ c.top c'.top)
  (hstack : StackRel M (findCandidates M threshold) c.top.fn c.stack c'.stack)

include hM hmem htop hstack

/-- The end of a block. -/
theorem Running.step_block (hr : c.top.rest = []) (hr' : c'.top.rest = []) :
    (∀ o, step I M c = .inr o → step I (inlineFunctions M threshold) c' = .inr o) ∧
      ∀ d, step I M c = .inl d → ∃ d', step I (inlineFunctions M threshold) c' = .inl d' ∧
        Running M (findCandidates M threshold) d d' := by
  have hdef := htop.defined
  rw [hr] at hdef
  have hread : ∀ op ∈ c.top.fn.needed c.top.term,
      c'.top.act.read I c'.mem op = c.top.act.read I c.mem op := by
    intro op hop
    rw [hmem]
    exact htop.read subset_rfl c.mem (hdef.uses op hop)
  have hisVoid : c'.top.fn.isVoid = c.top.fn.isVoid := by
    rw [htop.fn]
    rfl
  have hresult := Frame.result_congr hisVoid htop.term hread
  have hnext := nextBlock_congr_needed (I := I) htop.term hread
  rcases hv : c.top.result I c.mem with _ | v
  · simp only [step, hr, hr', hnext, hresult, hv]
    rw [hmem]
    rcases hn : nextBlock I c.top.act.places (c.top.act.state c.mem) c.top.term with _ | id
    · exact ⟨fun o ho => ho, (by rintro _ ⟨⟩)⟩
    · have hblocks : (c'.top.fn.findBlock id = none ∧ c.top.fn.findBlock id = none) ∨
          ∃ b insts', c.top.fn.findBlock id = some b ∧
            c'.top.fn.findBlock id = some { b with instructions := insts' } ∧
            Inlined c.top.fn.name (findCandidates M threshold)
              (fun k => siteTable (findCandidates M threshold) c.top.fn (id, k))
              b.instructions insts' := by
        rw [htop.fn]
        exact find?_inlineBlocks _ _ c.top.fn.blocks c.top.fn.locals id
      rcases hblocks with ⟨h', h⟩ | ⟨b, insts', h, h', hcode⟩
      · simp only [h, h']
        exact ⟨fun o ho => ho, (by rintro _ ⟨⟩)⟩
      · simp only [h, h']
        refine ⟨(by rintro _ ⟨⟩), fun d hd => ⟨_, rfl, ?_⟩⟩
        obtain rfl := Sum.inl.inj hd
        obtain rfl : b.id = id := by simpa using List.find?_some h
        have hpath := hdef.targets b.id (nextBlock_mem_targets hn)
        exact ⟨rfl, ⟨D, htop.fn, htop.mem, rfl, hcode,
          ⟨b, List.mem_of_find?_eq_some h, List.suffix_rfl⟩,
          .of_findBlock (hM.defined _ htop.mem) hpath h, htop.bound, htop.act, htop.clean⟩, hstack⟩
  · have hv' := hresult.trans hv
    obtain ⟨top, stack, m⟩ := c
    obtain ⟨top', stack', m'⟩ := c'
    obtain rfl : m' = m := hmem
    rw [step_of_result hr hv, step_of_result hr' hv']
    rcases hstack with _ | ⟨hframe, hstack⟩
    · exact ⟨fun o ho => ho, (by rintro _ ⟨⟩)⟩
    · refine ⟨(by rintro _ ⟨⟩), fun d hd => ⟨_, rfl, ?_⟩⟩
      obtain rfl := Sum.inl.inj hd
      obtain ⟨hm, E, hrel⟩ := hframe.resume (I := I) (Frame.result_cases hv) top.act top'.act m'
      exact ⟨hm, ⟨E, hrel⟩, hstack⟩

/-- A call the pass replaces: the copies of the arguments do what binding the parameters does. -/
theorem Running.step_site (hsafe : SiteSafe (findCandidates M threshold) c) {inst : Instruction}
    {r r' : List Instruction} {dest : LocalId} {cand : InlineCandidate} {off : ℕ}
    (hr : c.top.rest = inst :: r) (hr' : c'.top.rest = expandSite off dest cand args ++ r')
    (hsite : siteOf c.top.fn.name (findCandidates M threshold) inst = some (dest, cand, args))
    (hT : siteTable (findCandidates M threshold) c.top.fn (c.top.block, r.length) =
      some (off, cand.locals.length))
    (hcode : Inlined c.top.fn.name (findCandidates M threshold)
      (fun k => siteTable (findCandidates M threshold) c.top.fn (c.top.block, k)) r r') :
    ∃ d d' op E, step I M c = .inl d ∧
      Machine.Quiet (step I (inlineFunctions M threshold)) (fun c => c.mem.world) c' d' ∧
      Inside M (findCandidates M threshold) d d' { c.top with rest := r } dest c.stack off r' op
        D E := by
  obtain ⟨g, b, op, hg, hb, hterm, hnoCall, rfl, hcall⟩ := siteOf_eq_some hM hsite
  have hdef := htop.defined
  rw [hr] at hdef
  obtain ⟨b₀, hb₀, hsuf⟩ : ∃ b ∈ c.top.fn.blocks, inst :: r <:+ b.instructions := hr ▸ htop.part
  have hinst : inst ∈ b₀.instructions := hsuf.subset List.mem_cons_self
  obtain ⟨name, hinstEq, hbody⟩ := callOf_eq_some hcall
  have harity := hM.arity c.top.fn htop.mem b₀ hb₀ inst hinst dest g b args hcall
  have hoff : c.top.fn.locals.length ≤ off := (blockTable_bounds hT).1
  have hargs : ∀ op ∈ args, ∀ x ∈ op.locals, x ∈ D := by
    subst hinstEq
    exact fun op hop x hx =>
      hdef.uses.1 x (List.mem_append_left _ (List.mem_flatMap.mpr ⟨op, hop, hx⟩))
  have hclean : ∀ x < g.locals.length, c'.top.act.slots (x + off) = none :=
    htop.clean _ (Set.notMem_empty _) off _ hT (hsafe inst r hr (by simp [hsite]))
  have hparams := hM.params g hg
  have hρ : Function.Injective (· + off) := fun x y hxy => Nat.add_right_cancel hxy
  let ps := (g.paramLocals.zip args).map fun p => (p.1 + off, p.2)
  let vals := args.map (c.top.act.read I c.mem)
  let rest' := b.instructions.map (remapInstruction · off) ++ (assignReturn dest off op ++ r')
  have hparam : ∀ p ∈ ps, ∃ x < g.locals.length, p.1 = x + off := by
    intro p hp
    obtain ⟨q, hq, rfl⟩ := List.mem_map.mp hp
    exact ⟨q.1, hparams _ (List.of_mem_zip hq).1, rfl⟩
  -- the copies write above the caller's locals, and read the caller's locals
  have hps : ∀ p ∈ ps, ∀ x ∈ p.2.locals, ∀ q ∈ ps, q.1 ≠ x := by
    rintro p hp x hx q hq rfl
    obtain ⟨p', hp', rfl⟩ := List.mem_map.mp hp
    obtain ⟨y, -, hy⟩ := hparam q hq
    have hlt : q.1 < c.top.fn.locals.length :=
      htop.bound (hargs _ (List.of_mem_zip hp').2 _ hx)
    omega
  have hvals : ps.map (fun p => (p.1, c'.top.act.read I c.mem p.2)) =
      (g.paramLocals.zip vals).map fun p => (p.1 + off, p.2) := by
    simp only [ps, vals, List.zip_map_right, List.map_map]
    refine List.map_congr_left fun p hp => Prod.ext rfl ?_
    exact htop.read subset_rfl c.mem (hargs p.2 (List.of_mem_zip hp).2)
  have hquiet := quiet_copies (I := I) (inlineFunctions M threshold) rest' c'.top
    (fun p hp => by
      obtain ⟨x, hx, hpx⟩ := hparam p hp
      exact hpx ▸ hclean x hx) hps c'.stack c.mem
  rw [hvals] at hquiet
  have hstart : (⟨{ c'.top with rest := ps.map (fun p => .assign p.1 (.use p.2)) ++ rest' },
      c'.stack, c.mem⟩ : Config V W) = c' := by
    have hrest : ps.map (fun p => .assign p.1 (.use p.2)) ++ rest' = c'.top.rest := by
      rw [hr']
      simp [expandSite, ps, rest', List.map_map, Function.comp_def]
    rw [hrest, ← hmem]
  rw [hstart] at hquiet
  have hkeys : (g.paramLocals.zip vals).map Prod.fst = g.paramLocals :=
    List.map_fst_zip (by simp [vals, harity])
  refine ⟨⟨Frame.enter I g b vals, ({ c.top with rest := r }, dest) :: c.stack, c.mem⟩, _, op,
    {x | x ∈ g.paramLocals}, ?_, hquiet, ?_⟩
  · simp only [step, hr, hcall]
    rfl
  have hhead : g.blocks.head? = some b := by rw [hb]; rfl
  have hfind : g.findBlock b.id = some b := by simp [MirFunction.findBlock, hb]
  have hbmem : b ∈ g.blocks := List.mem_of_mem_head? hhead
  have hafter := hdef.tail
  simp only [MirModule.defs, hcall] at hafter
  have hbound : D ∪ {x | x ∈ g.writes dest} ⊆ own c.top.fn :=
    Set.union_subset htop.bound (writes_subset_own g
      (hM.dests c.top.fn htop.mem b₀ hb₀ inst hinst dest (by rw [hinstEq]; rfl)))
  refine
    { mem := rfl
      stack := rfl
      callee := hg
      term := hterm
      returns := hM.returns g hg b hbmem op hterm
      code := rfl
      noCall := hnoCall
      dests := hM.dests g hg b hbmem
      defined := .of_findBlock (hM.defined g hg) (.entry hhead) hfind
      bound := hparams
      copy := ⟨fun x hx _ => writeRegs_rename hρ (hkeys.symm ▸ hx) _ _, hclean⟩
      site := hT
      frame := ?_
      waiting := hstack }
  have hbase : FrameRel M (findCandidates M threshold) D (D ∪ {x | x ∈ g.writes dest})
      {(c.top.block, r.length)} { c.top with rest := r } { c'.top with rest := r' } :=
    ⟨htop.fn, htop.mem, htop.term, hcode, suffix_of_cons ⟨b₀, hb₀, hsuf⟩, hafter, hbound, htop.act,
      fun s _ => htop.clean s (Set.notMem_empty s)⟩
  refine hbase.of_act (fun x hx => writeRegs_of_notMem ?_ _) (fun _ _ => rfl) htop.bound
    fun _ _ _ _ _ _ _ => rfl
  simp only [List.map_map, List.mem_map, Function.comp_apply, not_exists, not_and]
  rintro p - rfl
  exact absurd hx (Nat.not_lt.mpr (hoff.trans (Nat.le_add_left _ _)))

end

theorem Running.step (hM : InlineReady M) {c c' : Config V W}
    (h : Running M (findCandidates M threshold) c c')
    (hsafe : SiteSafe (findCandidates M threshold) c) :
    (∀ o, step I M c = .inr o → step I (inlineFunctions M threshold) c' = .inr o) ∧
      ∀ d, step I M c = .inl d →
        (∃ d', step I (inlineFunctions M threshold) c' = .inl d' ∧
          Running M (findCandidates M threshold) d d') ∨
        ∃ d' caller dest below off r' op D E,
          Machine.Quiet (step I (inlineFunctions M threshold)) (fun c => c.mem.world) c' d' ∧
          caller.rest.length < c.top.rest.length ∧
          Inside M (findCandidates M threshold) d d' caller dest below off r' op D E := by
  obtain ⟨hmem, ⟨D, htop⟩, hstack⟩ := h
  rcases htop.code.split with ⟨hr, hr'⟩ | ⟨inst, r, r', hr, hr', hcode⟩ |
    ⟨inst, r, r', dest, cand, args, off, hr, hr', hsite, hT, hcode⟩
  · obtain ⟨hdone, hnext⟩ := Running.step_block (I := I) hM hmem htop hstack hr hr'
    exact ⟨hdone, fun d hd => .inl (hnext d hd)⟩
  · obtain ⟨hdone, hnext⟩ := Running.step_keep (I := I) hM hmem htop hstack hr hr' hcode
    exact ⟨hdone, fun d hd => .inl (hnext d hd)⟩
  · obtain ⟨d, d', op, E, hd, hq, hin⟩ := Running.step_site (I := I) hM hmem htop hstack hsafe hr
      hr' hsite hT hcode
    refine ⟨fun o ho => absurd (hd.symm.trans ho) (by simp), fun e he => .inr ?_⟩
    obtain rfl := Sum.inl.inj (hd.symm.trans he)
    exact ⟨d', _, _, _, _, _, _, _, _, hq, by simp [hr], hin⟩

end Steps

/-! ### Whole runs -/

section Runs

variable {I : Interp V W ℕ} {M : MirModule} {threshold : ℕ}

/-- The relation of the simulation. The index counts the instructions left in the caller, and half
an instruction for being inside a callee. -/
def Rel (I : Interp V W ℕ) (M : MirModule) (threshold k : ℕ) (c c' : Config V W) : Prop :=
  (Running M (findCandidates M threshold) c c' ∧ k = 2 * c.top.rest.length ∨
    ∃ caller dest below off r' op D E,
      Inside M (findCandidates M threshold) c c' caller dest below off r' op D E ∧
        k = 2 * caller.rest.length + 1) ∧
    ∀ d, Machine.Reaches (step I M) c d → SiteSafe (findCandidates M threshold) d

/-- **A renamed copy simulates a call frame.** -/
theorem inline_simulation (hM : InlineReady M) :
    Machine.StarSimulation (step I M) (step I (inlineFunctions M threshold))
      (fun c => c.mem.world) (fun c => c.mem.world) (Rel I M threshold) where
  obs_eq := by
    rintro k c c' ⟨⟨hrun, -⟩ | ⟨_, _, _, _, _, _, _, _, hin, -⟩, -⟩
    · rw [hrun.mem]
    · rw [hin.mem]
  next := by
    rintro k c c' d ⟨hrel, hsafe⟩ hd
    have hsafe' : ∀ e, Machine.Reaches (step I M) d e → SiteSafe (findCandidates M threshold) e :=
      fun e he => hsafe e (he.head hd)
    rcases hrel with ⟨hrun, rfl⟩ | ⟨caller, dest, below, off, r', op, D, E, hin, rfl⟩
    · rcases (hrun.step hM (hsafe c .refl)).2 d hd with
        ⟨d', hd', hrun'⟩ | ⟨d', _, _, _, _, _, _, _, _, hq, hlt, hin⟩
      · exact .inl ⟨d', _, .single hd', .inl ⟨hrun', rfl⟩, hsafe'⟩
      · rcases Relation.ReflTransGen.cases_tail hq with rfl | ⟨e, he, hstep⟩
        · exact .inr ⟨_, by omega, .inr ⟨_, _, _, _, _, _, _, _, hin, rfl⟩, hsafe'⟩
        · exact .inl ⟨d', _, ⟨e, he, hstep.1⟩, .inr ⟨_, _, _, _, _, _, _, _, hin, rfl⟩, hsafe'⟩
    · rcases hr : c.top.rest with _ | ⟨inst, r⟩
      · obtain ⟨e, he, hrest, hrun⟩ :=
          hin.step_return (I := I) (inlineFunctions M threshold) hr
        obtain rfl := Sum.inl.inj (he.symm.trans hd)
        rcases hrun with hrun | ⟨d', hd', hrun⟩
        · exact .inr ⟨_, by rw [hrest]; exact Nat.lt_succ_self _, .inl ⟨hrun, rfl⟩, hsafe'⟩
        · exact .inl ⟨d', _, .single hd', .inl ⟨hrun, rfl⟩, hsafe'⟩
      · obtain ⟨d', E', hd', hin'⟩ :=
          (hin.step_inst (I := I) (inlineFunctions M threshold) hr).2 d hd
        exact .inl ⟨d', _, .single hd', .inr ⟨_, _, _, _, _, _, _, _, hin', rfl⟩, hsafe'⟩
  done := by
    rintro k c c' o ⟨⟨hrun, -⟩ | ⟨_, _, _, _, _, _, _, _, hin, -⟩, hsafe⟩ ho
    · exact (hrun.step hM (hsafe c .refl)).1 o ho
    · rcases hr : c.top.rest with _ | ⟨inst, r⟩
      · obtain ⟨e, he, -⟩ := hin.step_return (I := I) (inlineFunctions M threshold) hr
        exact absurd (he.symm.trans ho) (by simp)
      · exact (hin.step_inst (I := I) (inlineFunctions M threshold) hr).1 o ho

end Runs

end Inline

/-- The copies for the calls of `f`: the ids of the locals are `0, …, m - 1` again, the copies lie
among the new ones and apart from each other, and every call is expanded at its copy. -/
structure FreshCopies (candidates : List (String × InlineCandidate)) (f f' : MirFunction) :
    Prop where
  ids : (f'.locals.map MirLocal.id).Perm (List.range f'.locals.length)
  above : ∀ s off len, siteTable candidates f s = some (off, len) →
    f.locals.length ≤ off ∧ off + len ≤ f'.locals.length
  disjoint : ∀ s s' off off' len len', s ≠ s' → siteTable candidates f s = some (off, len) →
    siteTable candidates f s' = some (off', len') → off + len ≤ off' ∨ off' + len' ≤ off
  expanded : ∀ id b, f.findBlock id = some b → ∃ b', f'.findBlock id = some b' ∧
    b'.terminator = b.terminator ∧
    Inlined f.name candidates (fun k => siteTable candidates f (id, k)) b.instructions
      b'.instructions

theorem freshCopies_inlineCallsInFunction {M : MirModule} (hM : InlineReady M) (threshold : ℕ)
    (hf : f ∈ M.functions) :
    FreshCopies (findCandidates M threshold) f
      (inlineCallsInFunction (findCandidates M threshold) f) where
  ids := by
    refine perm_inlineBlocks (fun inst dest c args hsite => ?_) f.blocks (hM.ids f hf)
    obtain ⟨g, b, op, hg, -, -, -, rfl, -⟩ := siteOf_eq_some hM hsite
    exact hM.ids g hg
  above := by
    intro s off len hT
    have hlen : (inlineCallsInFunction (findCandidates M threshold) f).locals.length = _ :=
      length_inlineBlocks f.blocks f.locals
    obtain ⟨h₁, h₂⟩ := blockTable_bounds hT
    exact ⟨h₁, h₂.trans hlen.ge⟩
  disjoint := fun _ _ _ _ _ _ hs h h' => blockTable_disjoint hs h h'
  expanded := by
    intro id b hb
    rcases find?_inlineBlocks f.name (findCandidates M threshold) f.blocks f.locals id with
      ⟨-, hnone⟩ | ⟨b₁, insts', h, h', hcode⟩
    · exact absurd (hnone.symm.trans hb) (by simp)
    · obtain rfl : b₁ = b := Option.some.inj (h.symm.trans hb)
      exact ⟨_, h', rfl, hcode⟩

/-- **Inlining preserves meaning.** Called with any arguments, in any world, a function ends as in
the original module, with the same value and world, or panics alike, or neither ends; and both pass
through the same worlds on the way. In the run of the original, no call that is inlined may be made
again in one activation after its callee took the address of one of its locals. The copies never
share a local. -/
theorem inlining_agrees {V W : Type} (I : Interp V W ℕ) {M : MirModule} (hM : InlineReady M)
    (threshold : ℕ) :
    (∀ name args m c, start I M name args m = some c →
      (∀ d, Machine.Reaches (step I M) c d → SiteSafe (findCandidates M threshold) d) →
      ∃ c', start I (inlineFunctions M threshold) name args m = some c' ∧
        (∀ o, Machine.Terminates (step I M) c o ↔
          Machine.Terminates (step I (inlineFunctions M threshold)) c' o) ∧
        ∀ w, Machine.Shows (step I M) (fun c => c.mem.world) c w ↔
          Machine.Shows (step I (inlineFunctions M threshold)) (fun c => c.mem.world) c' w) ∧
    List.Forall₂ (FreshCopies (findCandidates M threshold)) M.functions
      (inlineFunctions M threshold).functions := by
  refine ⟨?_, ?_⟩
  · intro name args m c hc hsafe
    obtain ⟨⟨f, b⟩, hbody, rfl⟩ := Option.map_eq_some_iff.mp hc
    rcases Inline.findBody_inlineFunctions M threshold name with
      ⟨hnone, -⟩ | ⟨f₁, b₁, insts', hbody₁, hbody', hcode⟩
    · exact absurd (hnone.symm.trans hbody) (by simp)
    obtain ⟨rfl, rfl⟩ : f₁ = f ∧ b₁ = b := by simpa [hbody₁] using hbody
    refine ⟨⟨Frame.enter I (inlineCallsInFunction (findCandidates M threshold) f₁)
      { b₁ with instructions := insts' } args, [], m⟩, by simp [start, hbody'], ?_⟩
    have hrel : Inline.Rel I M threshold (2 * b₁.instructions.length)
        ⟨Frame.enter I f₁ b₁ args, [], m⟩
        ⟨Frame.enter I (inlineCallsInFunction (findCandidates M threshold) f₁)
          { b₁ with instructions := insts' } args, [], m⟩ :=
      ⟨.inl ⟨⟨rfl, ⟨_, Inline.FrameRel.enter hM hbody hcode args⟩, .nil _⟩, rfl⟩, hsafe⟩
    exact ⟨(Inline.inline_simulation hM).terminates_iff hrel,
      (Inline.inline_simulation hM).shows_iff hrel⟩
  · rw [functions_inlineFunctions, List.forall₂_map_right_iff]
    exact List.forall₂_same.mpr fun f hf => freshCopies_inlineCallsInFunction hM threshold hf

/-- A module that takes no address is safe, whatever it is called with. -/
theorem siteSafe_of_no_addresses {V W : Type} {I : Interp V W ℕ} {M : MirModule}
    (hM : ∀ f ∈ M.functions, ∀ b ∈ f.blocks, ∀ inst ∈ b.instructions, inst.addressed = [])
    {name : String} {args : List V} {m : Memory W} {c d : Config V W}
    (hc : start I M name args m = some c) (hd : Machine.Reaches (step I M) c d)
    (candidates : List (String × InlineCandidate)) : SiteSafe candidates d := by
  intro inst rest _ _ p hp _
  exact (((NoAddresses.start hM hc).reaches hM hd) d.top List.mem_cons_self).calls p hp

/-! ## Two modules -/

/-- `leak(v)` returns the address of its parameter. -/
def leak : MirFunction where
  name := "leak"
  params := [⟨0, .i64⟩]
  retTy := .i64
  blocks := [⟨0, [.assign 1 (.addrOf 0 false)], .ret (some (.local 1))⟩]
  locals := (List.range 2).map fun i => ⟨i, none, .i64, false⟩
  attributes := {}

/-- `main(n, last, prev)` calls `leak(n)`, `leak(n - 1)`, …, `leak(1)` in a loop, keeps the last two
results, and returns what is behind the last but one. -/
def lastButOne : MirFunction where
  name := "main"
  params := [⟨0, .i64⟩, ⟨1, .i64⟩, ⟨2, .i64⟩]
  retTy := .i64
  blocks := [
    ⟨0, [.assign 2 (.use (.local 1)), .assign 1 (.call "leak" [.local 0]),
        .assign 0 (.binOp .sub (.local 0) (.constant (.int 1))),
        .assign 3 (.binOp .eq (.local 0) (.constant (.int 0)))], .branch (.local 3) 1 0⟩,
    ⟨1, [.assign 4 (.deref (.local 2))], .ret (some (.local 4))⟩]
  locals := (List.range 5).map fun i => ⟨i, none, .i64, false⟩
  attributes := {}

/-- `pred(v)` returns `v - 1`. -/
def predecessor : MirFunction where
  name := "pred"
  params := [⟨0, .i64⟩]
  retTy := .i64
  blocks := [⟨0, [.assign 1 (.binOp .sub (.local 0) (.constant (.int 1)))], .ret (some (.local 1))⟩]
  locals := (List.range 2).map fun i => ⟨i, none, .i64, false⟩
  attributes := {}

/-- `main(n)` counts down with `pred`. -/
def countDown : MirFunction where
  name := "main"
  params := [⟨0, .i64⟩]
  retTy := .i64
  blocks := [
    ⟨0, [.assign 0 (.call "pred" [.local 0]),
        .assign 1 (.binOp .eq (.local 0) (.constant (.int 0)))], .branch (.local 1) 1 0⟩,
    ⟨1, [], .ret (some (.local 0))⟩]
  locals := (List.range 2).map fun i => ⟨i, none, .i64, false⟩
  attributes := {}

theorem inlineReady_lastButOne : InlineReady ⟨[lastButOne, leak]⟩ where
  names := by decide
  ids := by decide
  params := by decide
  dests := by decide
  arity := by
    simp [lastButOne, leak, MirModule.callOf, MirModule.findBody, MirFunction.paramLocals]
    rintro dest g b' args - rfl - rfl
    rfl
  returns := by simp +contextual [lastButOne, leak, MirFunction.isVoid]
  defined f hf := definedBeforeUse_of_params (by revert f; decide)

theorem inlineReady_countDown : InlineReady ⟨[countDown, predecessor]⟩ where
  names := by decide
  ids := by decide
  params := by decide
  dests := by decide
  arity := by
    simp [countDown, predecessor, MirModule.callOf, MirModule.findBody, MirFunction.paramLocals]
    rintro dest g b' args - rfl - rfl
    rfl
  returns := by simp +contextual [countDown, predecessor, MirFunction.isVoid]
  defined f hf := definedBeforeUse_of_params (by revert f; decide)

theorem inlining_agrees_countDown :
    ∃ c c', start flatMachine ⟨[countDown, predecessor]⟩ "main" [3] ⟨fun _ => 0, 0⟩ = some c ∧
      start flatMachine (inlineFunctions ⟨[countDown, predecessor]⟩ 20) "main" [3]
        ⟨fun _ => 0, 0⟩ = some c' ∧
      Machine.Terminates (step flatMachine ⟨[countDown, predecessor]⟩) c
        (.returned (some 0) fun _ => 0) ∧
      Machine.Terminates (step flatMachine (inlineFunctions ⟨[countDown, predecessor]⟩ 20)) c'
        (.returned (some 0) fun _ => 0) := by
  have haddr : ∀ f ∈ [countDown, predecessor], ∀ b ∈ f.blocks, ∀ inst ∈ b.instructions,
      inst.addressed = [] := by decide
  obtain ⟨c, hc⟩ : ∃ c, start flatMachine ⟨[countDown, predecessor]⟩ "main" [3]
      ⟨fun _ => 0, 0⟩ = some c := ⟨_, rfl⟩
  obtain ⟨c', hc', hterm, -⟩ := (inlining_agrees flatMachine inlineReady_countDown 20).1 _ _ _ c hc
    fun d hd => siteSafe_of_no_addresses haddr hc hd _
  have hreturns : Machine.Terminates (step flatMachine ⟨[countDown, predecessor]⟩) c
      (.returned (some 0) fun _ => 0) := by
    obtain rfl := Option.some.inj hc
    exact Machine.terminates_of_run 30 rfl
  exact ⟨c, c', hc, hc', hreturns, (hterm _).mp hreturns⟩

theorem inlined_local_is_reused :
    InlineReady ⟨[lastButOne, leak]⟩ ∧
    ∃ c c' w, start flatMachine ⟨[lastButOne, leak]⟩ "main" [2, 0, 0] ⟨fun _ => 0, 0⟩ = some c ∧
      start flatMachine (inlineFunctions ⟨[lastButOne, leak]⟩ 20) "main" [2, 0, 0]
        ⟨fun _ => 0, 0⟩ = some c' ∧
      Machine.Terminates (step flatMachine ⟨[lastButOne, leak]⟩) c (.returned (some 2) w) ∧
      ¬ ∃ w', Machine.Terminates (step flatMachine (inlineFunctions ⟨[lastButOne, leak]⟩ 20)) c'
        (.returned (some 2) w') := by
  obtain ⟨c', hc'⟩ : ∃ c', start flatMachine (inlineFunctions ⟨[lastButOne, leak]⟩ 20) "main"
      [2, 0, 0] ⟨fun _ => 0, 0⟩ = some c' := ⟨_, rfl⟩
  have hone : ∃ w, Machine.Terminates (step flatMachine (inlineFunctions ⟨[lastButOne, leak]⟩ 20))
      c' (.returned (some 1) w) := by
    obtain rfl := Option.some.inj hc'
    exact ⟨_, Machine.terminates_of_run 30 rfl⟩
  refine ⟨inlineReady_lastButOne, _, c', _, rfl, hc', Machine.terminates_of_run 30 rfl, ?_⟩
  rintro ⟨w', hw'⟩
  obtain ⟨w, hw⟩ := hone
  have heq := hw.unique hw'
  simp at heq

end Kryos

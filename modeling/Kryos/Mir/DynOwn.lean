import Kryos.Mir.Ir
import Mathlib.Data.Finset.Range
import Mathlib.Data.List.Sort

/-!
# Reference counting for trait objects

`dyn_own.rs`: lowering emits a scope-end `Drop` for every named `dyn` local and nothing else; the
pass inserts the retains and the remaining releases. It treats each `dyn` local on its own, in one
of five ways: a parameter or named local keeps its reference and retains before every use that
takes one; a temp without uses is released at once; a temp of one block gives its reference away
with its last use or is released after it; a slot with a single use in another block gives its
reference away when no path runs the use again before a definition; anything else retains and is
never released.

The hash maps and sets of the source are lists of positions and predicates here. The edits of one
local do not depend on those of another, so they are computed local by local and merged in the
order of the local ids, as the source's loop does.

## Main definitions

* `instUses`, `instDef` — how an instruction uses and defines `dyn` locals
* `localEdits` — where one local is retained and released
* `ownDynRefsIn` — the pass on one function, `ownDynRefs` on all of them
-/

namespace Kryos.DynOwn

/-- How a use treats the reference of the local. -/
inductive Use
  | borrow | copy | own | ret
  deriving DecidableEq, Repr

/-- Where a use sits: an instruction, or the block terminator. -/
inductive At
  | inst (i : ℕ)
  | term
  deriving DecidableEq, Repr

/-- Whether a definition brings a reference of its own. -/
inductive DefKind
  | owned | copied | alias
  deriving DecidableEq, Repr

/-- The uses that take a reference. -/
def Use.owning : Use → Bool
  | .borrow => false
  | .copy | .own | .ret => true

/-! ## Uses and definitions -/

section Uses

variable (isDyn : LocalId → Bool) (borrows userFn : String → Bool)

/-- A use of a local, when it is a `dyn` local. -/
def localUse (k : Use) (l : LocalId) : List (LocalId × Use) :=
  if isDyn l then [(l, k)] else []

/-- A use of an operand, when it is a `dyn` local. -/
def operandUse (k : Use) : Operand → List (LocalId × Use)
  | .local l => localUse isDyn k l
  | .constant _ => []

/-- The uses of an r-value, one entry for each operand position. -/
def rvalueUses : RValue Operand → List (LocalId × Use)
  | .use op => operandUse isDyn .copy op
  | .call func args =>
    let helper := func = "kryos_fn_retain" ∨ func = "kryos_fn_release_if_ne"
    args.flatMap (operandUse isDyn (if borrows func ∨ helper then .borrow else .own))
  | .callIndirect callee args => (callee :: args).flatMap (operandUse isDyn .borrow)
  | .vtableCall object _ args _ => (object :: args).flatMap (operandUse isDyn .borrow)
  | .makeTraitObject value _ _ _ => operandUse isDyn .own value
  | .binOp _ left right => [left, right].flatMap (operandUse isDyn .own)
  | .unOp _ operand | .cast operand _ | .enumTag operand | .enumPayload operand _ _ _
  | .deref operand => operandUse isDyn .own operand
  | .arcAlloc inner => operandUse isDyn .own inner
  | .array ops | .tuple ops | .stringConcat ops => ops.flatMap (operandUse isDyn .own)
  | .enumVariant _ _ fields => fields.flatMap (operandUse isDyn .own)
  | .struct _ fields => fields.flatMap fun p => operandUse isDyn .own p.2
  | .field object _ => operandUse isDyn .borrow object
  | .index object index => [object, index].flatMap (operandUse isDyn .own)
  | .closure _ captures => captures.flatMap (operandUse isDyn .own)
  | .map entries => entries.flatMap fun p => [p.1, p.2].flatMap (operandUse isDyn .own)
  | .range start stop _ => (start.toList ++ stop.toList).flatMap (operandUse isDyn .own)
  | .addrOf l _ => localUse isDyn .own l
  | .comptime inner => rvalueUses inner
  | .constInt _ | .constFloat _ | .constBool _ | .constString _ | .constNone => []

/-- `inst_uses`. -/
def instUses : Instruction → List (LocalId × Use)
  | .assign _ value => rvalueUses isDyn borrows value
  | .storeField object _ value => operandUse isDyn .borrow object ++ operandUse isDyn .own value
  | .storeDeref ptr value => [ptr, value].flatMap (operandUse isDyn .own)
  | .spawn _ args => args.flatMap (operandUse isDyn .own)
  | .send channel value => [channel, value].flatMap (localUse isDyn .own)
  | .actorSpawn _ _ state => operandUse isDyn .own state
  | .actorSend _ _ args => args.flatMap (operandUse isDyn .own)
  | .actorStateStore _ _ value => operandUse isDyn .own value
  | .arcRetain _ | .arcRelease _ | .drop _ | .dropIfNe .. | .nop | .debugLine _ | .receive ..
  | .actorStateLoad .. => []

/-- The kind of the definition an r-value makes. -/
def rvalueDef : RValue Operand → DefKind
  | .makeTraitObject .. | .vtableCall .. | .callIndirect .. => .owned
  | .call func _ => if borrows func ∨ userFn func then .owned else .alias
  | .use _ => .copied
  | _ => .alias

/-- `inst_def`. -/
def instDef : Instruction → Option (LocalId × DefKind)
  | .assign dest value => if isDyn dest then some (dest, rvalueDef borrows userFn value) else none
  | .receive dest _ | .actorStateLoad dest _ _ => if isDyn dest then some (dest, .alias) else none
  | _ => none

/-- The use a terminator makes. -/
def termUses : Terminator → List (LocalId × Use)
  | .ret (some op) => operandUse isDyn .ret op
  | _ => []

end Uses

section Dyn

variable {isDyn : LocalId → Bool} {borrows : String → Bool} {u : LocalId × Use}

theorem of_mem_localUse {k : Use} {l : LocalId} (h : u ∈ localUse isDyn k l) :
    isDyn u.1 ∧ u.2 = k := by
  unfold localUse at h
  split_ifs at h with hl
  · rw [List.mem_singleton.mp h]
    exact ⟨hl, rfl⟩
  · simp at h

theorem of_mem_operandUse {k : Use} {op : Operand} (h : u ∈ operandUse isDyn k op) :
    isDyn u.1 ∧ u.2 = k := by
  rcases op with l | c
  · exact of_mem_localUse h
  · simp [operandUse] at h

/-- No operand of an instruction is returned. -/
theorem of_mem_operand {k : Use} {op : Operand} (h : u ∈ operandUse isDyn k op) (hk : k ≠ .ret) :
    isDyn u.1 ∧ u.2 ≠ .ret :=
  ⟨(of_mem_operandUse h).1, (of_mem_operandUse h).2 ▸ hk⟩

theorem of_mem_operands {k : Use} {ops : List Operand}
    (h : u ∈ ops.flatMap (operandUse isDyn k)) (hk : k ≠ .ret) : isDyn u.1 ∧ u.2 ≠ .ret := by
  obtain ⟨op, -, hop⟩ := List.mem_flatMap.mp h
  exact of_mem_operand hop hk

theorem of_mem_rvalueUses {rv : RValue Operand} (h : u ∈ rvalueUses isDyn borrows rv) :
    isDyn u.1 ∧ u.2 ≠ .ret := by
  induction rv with
  | comptime inner ih => exact ih h
  | struct name fields =>
    obtain ⟨p, -, hp⟩ := List.mem_flatMap.mp h
    exact of_mem_operand hp nofun
  | map entries =>
    obtain ⟨p, -, hp⟩ := List.mem_flatMap.mp h
    exact of_mem_operands hp nofun
  | addrOf l => exact ⟨(of_mem_localUse h).1, (of_mem_localUse h).2 ▸ nofun⟩
  | constInt | constFloat | constBool | constString | constNone => simp [rvalueUses] at h
  | use | makeTraitObject | unOp | cast | enumTag | enumPayload | deref | arcAlloc | field =>
    exact of_mem_operand h nofun
  | call =>
    refine of_mem_operands h ?_
    split_ifs <;> nofun
  | callIndirect | vtableCall | binOp | array | tuple | stringConcat | enumVariant | index | closure
  | range => exact of_mem_operands h nofun

/-- The uses of an instruction are of `dyn` locals, and none is a return. -/
theorem of_mem_instUses {inst : Instruction} (h : u ∈ instUses isDyn borrows inst) :
    isDyn u.1 ∧ u.2 ≠ .ret := by
  rcases inst with _ | _ | _ | _ | _ | _ | _ | _ | _ | _ | _ | _ | _ | _ | _ | _
  case assign => exact of_mem_rvalueUses h
  case storeField =>
    rcases List.mem_append.mp h with h | h <;> exact of_mem_operand h nofun
  case send =>
    obtain ⟨l, -, hl⟩ := List.mem_flatMap.mp h
    exact ⟨(of_mem_localUse hl).1, (of_mem_localUse hl).2 ▸ nofun⟩
  case storeDeref | spawn | actorSend => exact of_mem_operands h nofun
  case actorSpawn | actorStateStore => exact of_mem_operand h nofun
  all_goals simp [instUses] at h

end Dyn

/-- `is_exception_check`. -/
def isExceptionCheck : Instruction → Bool
  | .assign _ (.call func _) => func = "kryos_exception_check"
  | _ => false

/-! ## The control-flow graph -/

/-- The last block with an id: the entry a hash map built from the blocks keeps. -/
def blockIndex (f : MirFunction) (id : BlockId) : Option ℕ :=
  (f.blocks.zipIdx.filter fun b => b.1.id = id).getLast?.map Prod.snd

/-- The successors of each block, as indices. -/
def succs (f : MirFunction) : List (List ℕ) :=
  f.blocks.map fun b => b.successors.filterMap (blockIndex f)

/-- The loop of `reaches_without`, the top of the stack first. Every turn either pops a block or
sees a new one. -/
def reachesLoop (succs : List (List ℕ)) (target : ℕ) (barriers : List ℕ) (seen : Finset ℕ) :
    List ℕ → Bool
  | [] => false
  | b :: stack =>
    if b = target then true
    else if b ∈ barriers ∨ b ∈ seen then reachesLoop succs target barriers seen stack
    else if h : b < succs.length then
      reachesLoop succs target barriers (insert b seen) (succs[b].reverse ++ stack)
    else reachesLoop succs target barriers seen stack
  termination_by stack => ((Finset.range succs.length \ seen).card, stack.length)
  decreasing_by
    · exact Prod.Lex.right _ (by simp)
    · refine Prod.Lex.left _ _ (Finset.card_lt_card ?_)
      refine Finset.ssubset_iff_subset_ne.mpr ⟨?_, fun heq => ?_⟩
      · exact Finset.sdiff_subset_sdiff subset_rfl (Finset.subset_insert b seen)
      · have hmem : b ∈ Finset.range succs.length \ seen := by simp_all
        rw [← heq] at hmem
        simp at hmem
    · exact Prod.Lex.right _ (by simp)

/-- `reaches_without`: can `source` reach itself through a path that never enters a block of
`barriers`? -/
def reachesWithout (succs : List (List ℕ)) (source : ℕ) (barriers : List ℕ) : Bool :=
  reachesLoop succs source barriers ∅ (succs.getD source []).reverse

/-! ## The locals of a function -/

/-- The locals of a `dyn Trait` type. -/
def isDyn (f : MirFunction) (l : LocalId) : Bool :=
  f.locals.any fun d => d.id = l && d.ty matches .dynTrait _

/-- `dyn_ids`, sorted. -/
def dynIds (f : MirFunction) : List LocalId :=
  (((f.locals.filter fun d => d.ty matches .dynTrait _).map MirLocal.id).dedup).insertionSort (· ≤ ·)

def isParam (f : MirFunction) (l : LocalId) : Bool :=
  f.paramLocals.contains l

def isNamed (f : MirFunction) (l : LocalId) : Bool :=
  f.locals.any fun d => d.id = l && d.name.isSome

/-- A wrapper that only `Spawn` starts: it owns its `dyn` arguments. -/
def spawnWrapper (f : MirFunction) : Bool :=
  "__spawn_".toList.isPrefixOf f.name.toList || "__coopspawn_".toList.isPrefixOf f.name.toList

/-- `spawn_owned_params`. -/
def spawnOwnedParams (f : MirFunction) : List LocalId :=
  if spawnWrapper f then f.paramLocals.filter (isDyn f) else []

/-! ## Positions -/

section Edits

variable (borrows userFn : String → Bool) (f : MirFunction)

/-- The uses of one block, in order. -/
def blockUses (b : BasicBlock) : List (At × LocalId × Use) :=
  (b.instructions.zipIdx.flatMap fun i =>
    (instUses (isDyn f) borrows i.1).map fun u => (At.inst i.2, u)) ++
  (termUses (isDyn f) b.terminator).map fun u => (At.term, u)

/-- `uses[l]`: block, place and kind of each use. -/
def usesOf (l : LocalId) : List (ℕ × At × Use) :=
  f.blocks.zipIdx.flatMap fun b =>
    ((blockUses borrows f b.1).filter fun u => u.2.1 = l).map fun u => (b.2, u.1, u.2.2)

/-- `defs[l]`: block, instruction and kind of each definition. -/
def defsOf (l : LocalId) : List (ℕ × ℕ × DefKind) :=
  f.blocks.zipIdx.flatMap fun b => b.1.instructions.zipIdx.flatMap fun i =>
    match instDef (isDyn f) borrows userFn i.1 with
    | some (d, k) => if d = l then [(b.2, i.2, k)] else []
    | none => []

/-- The edits for one local: retains before an instruction or the terminator, retains and releases
after an instruction. -/
structure LocalEdits where
  retain : List (ℕ × At) := []
  retainAfter : List (ℕ × ℕ) := []
  releaseAfter : List (ℕ × ℕ) := []

/-- The retains of a use that takes a reference while the local keeps its own. -/
def retainAt (u : ℕ × At × Use) : List (ℕ × At) :=
  if u.2.2.owning then [(u.1, u.2.1)] else []

/-- The instruction is a `Drop` of the local. -/
def isDropOf (l : LocalId) : Instruction → Bool
  | .drop id => id = l
  | _ => false

/-- The first `Drop` of a local in a block. -/
def dropAt (l : LocalId) (bi : ℕ) : Option ℕ :=
  f.blocks[bi]?.bind fun b => b.instructions.findIdx? (isDropOf l)

/-- The retains of a use of a parameter or named local. The returned reference of a named local is
taken before the scope-end `Drop` of the block; without one, lowering has moved the local out. -/
def holderRetain (l : LocalId) (u : ℕ × At × Use) : List (ℕ × At) :=
  if u.2.2 = .ret ∧ ¬ isParam f l then
    match dropAt f l u.1 with
    | some d => [(u.1, .inst d)]
    | none => []
  else retainAt u

/-- The order of the places in a block. -/
def At.le : At → At → Bool
  | .inst i, .inst j => i ≤ j
  | .inst _, .term => true
  | .term, .inst _ => false
  | .term, .term => true

/-- A temp of one block: all its uses follow its only definition there. -/
def singleBlock (uses : List (ℕ × At × Use)) : List (ℕ × ℕ × DefKind) → Bool
  | [(bi, di, _)] => uses.all fun u => u.1 = bi && match u.2.1 with
    | .inst i => di < i
    | .term => true
  | _ => false

/-- The retains of a temp of one block whose last use is at `last`: the first owning use there moves
the reference, every other owning use retains. -/
def moveRetains (last : At) : Bool → List (ℕ × At × Use) → List (ℕ × At)
  | _, [] => []
  | moved, (bi, at_, k) :: uses =>
    if ¬ k.owning then moveRetains last moved uses
    else
      match at_ with
      | .term => moveRetains last moved uses
      | .inst i =>
        if at_ = last then
          (if moved then [(bi, .inst i)] else []) ++ moveRetains last true uses
        else (bi, .inst i) :: moveRetains last moved uses

/-- The release of a temp of one block, unless its last use moves the reference. -/
def releaseLast (bi : ℕ) (lastMoves : Bool) : At → List (ℕ × ℕ)
  | .inst i => if lastMoves then [] else [(bi, i)]
  | .term => []

/-- A slot that gives its reference away: its single use takes a reference, is in none of its
definition blocks, and cannot run again without passing one. -/
def crossMoved (defs : List (ℕ × ℕ × DefKind)) : List (ℕ × At × Use) → Bool
  | [(ub, _, k)] =>
    k.owning && !defs.isEmpty && !(defs.map Prod.fst).contains ub &&
      !reachesWithout (succs f) ub (defs.map Prod.fst)
  | _ => false

/-- The edits for one `dyn` local. -/
def localEdits (l : LocalId) : LocalEdits :=
  let uses := usesOf borrows f l
  let defs := defsOf borrows userFn f l
  let retainAfter := (defs.filter fun d => d.2.2 = .alias).map fun d => (d.1, d.2.1)
  if isParam f l ∨ isNamed f l then
    { retain := uses.flatMap (holderRetain f l), retainAfter }
  else if uses.isEmpty then
    { releaseAfter := defs.map fun d => (d.1, d.2.1), retainAfter }
  else if singleBlock uses defs then
    let ordered := uses.insertionSort fun u v => u.2.1.le v.2.1
    match ordered.getLast? with
    | none => { retainAfter }
    | some (bi, last, _) =>
      let lastMoves := ordered.any fun u => u.2.1 = last && u.2.2.owning
      { retain := moveRetains last false ordered
        retainAfter
        releaseAfter := releaseLast bi lastMoves last }
  else if crossMoved f defs uses then { retainAfter }
  else { retain := uses.flatMap retainAt, retainAfter }

/-! ## Materializing the edits -/

/-- The locals retained at a place, in the order of their ids. -/
def retainsAt (bi : ℕ) (at_ : At) : List LocalId :=
  (dynIds f).flatMap fun l =>
    List.replicate ((localEdits borrows userFn f l).retain.count (bi, at_)) l

def retainsAfter (bi ii : ℕ) : List LocalId :=
  (dynIds f).flatMap fun l =>
    List.replicate ((localEdits borrows userFn f l).retainAfter.count (bi, ii)) l

def releasesAfter (bi ii : ℕ) : List LocalId :=
  (dynIds f).flatMap fun l =>
    List.replicate ((localEdits borrows userFn f l).releaseAfter.count (bi, ii)) l

end Edits

/-- `retain_inst`, with a fresh sink for its result. -/
def retainInst (l sink : LocalId) : Instruction :=
  .assign sink (.call "kryos_fn_retain" [.local l])

/-- Retains with sinks from `next` on. -/
def retainInsts : ℕ → List LocalId → List Instruction
  | _, [] => []
  | next, l :: ls => retainInst l next :: retainInsts (next + 1) ls

/-- The instructions of one block with the edits, from instruction `ii` on, and the next free local.
A call and its exception check stay adjacent. -/
def materialize (retain : At → List LocalId) (after release : ℕ → List LocalId) :
    ℕ → ℕ → List Instruction → List Instruction × ℕ
  | next, _, [] => (retainInsts next (retain .term), next + (retain .term).length)
  | next, ii, inst :: rest =>
    let pre := retainInsts next (retain (.inst ii))
    let next₁ := next + (retain (.inst ii)).length
    let post := retainInsts next₁ (after ii) ++ (release ii).map Instruction.drop
    let next₂ := next₁ + (after ii).length
    if (after ii).isEmpty ∧ (release ii).isEmpty then
      let r := materialize retain after release next₁ (ii + 1) rest
      (pre ++ inst :: r.1, r.2)
    else
      match rest with
      | [] =>
        let r := materialize retain after release next₂ (ii + 1) []
        (pre ++ inst :: (post ++ r.1), r.2)
      | check :: rest' =>
        if isExceptionCheck check then
          let r := materialize retain after release next₂ (ii + 2) rest'
          (pre ++ inst :: check :: (post ++ r.1), r.2)
        else
          let r := materialize retain after release next₂ (ii + 1) (check :: rest')
          (pre ++ inst :: (post ++ r.1), r.2)

section Pass

variable (borrows userFn : String → Bool)

/-- The blocks with their edits, sinks allocated from `next` on. -/
def materializeBlocks (f : MirFunction) : ℕ → ℕ → List BasicBlock → List BasicBlock × ℕ
  | next, _, [] => ([], next)
  | next, bi, b :: bs =>
    let r := materialize (retainsAt borrows userFn f bi) (retainsAfter borrows userFn f bi)
      (releasesAfter borrows userFn f bi) next 0 b.instructions
    let r' := materializeBlocks f r.2 (bi + 1) bs
    ({ b with instructions := r.1 } :: r'.1, r'.2)

/-- A spawn wrapper releases its parameters when it returns. -/
def releaseParams (params : List LocalId) (b : BasicBlock) : BasicBlock :=
  match b.terminator with
  | .ret _ => { b with instructions := b.instructions ++ params.map Instruction.drop }
  | _ => b

/-- One past the largest local id. -/
def freshLocal (f : MirFunction) : ℕ :=
  (f.locals.map MirLocal.id).foldr max 0 + 1

/-- `own_dyn_refs_in`. -/
def ownDynRefsIn (f : MirFunction) : MirFunction :=
  if dynIds f = [] then f
  else
    let r := materializeBlocks borrows userFn f (freshLocal f) 0 f.blocks
    { f with
      blocks := r.1.map (releaseParams (spawnOwnedParams f))
      locals := f.locals ++ (List.range' (freshLocal f) (r.2 - freshLocal f)).map fun id =>
        ⟨id, none, .i64, false⟩ }

/-- `own_dyn_refs`. -/
def ownDynRefs (fs : List MirFunction) : List MirFunction :=
  fs.map (ownDynRefsIn
    (fun n => fs.any (fun g => g.name = n) && !fs.any fun g => g.attributes.isAsync && g.name = n)
    fun n => fs.any fun g => g.name = n)

end Pass

end Kryos.DynOwn

import Mathlib
import Kryos.Mir.Calls

/-!
# Tail-call optimisation

`optimize_function` of `kryos-mir/src/optimize/tco.rs`: a block that ends in a call of its own
function and returns the result becomes a jump to the entry block, after the arguments have been
copied to fresh temporaries and from there to the parameters.

The recursive function has a new activation for every call, the loop has one. Registers left over
from the previous iteration are harmless, since a local is written before it is used. Memory is
not: a local whose address was taken keeps its address in the next iteration, so the loop and the
recursion agree as long as no activation that has taken the address of one of its locals makes such
a call.

## Main results

* `loopBack_quietPlus` — the jump binds the parameters as a call would
* `tco_simulation` — a stack of activations is simulated by one frame
* `tail_calls_agree` — whole runs
-/

namespace Kryos

/-! ## The pass -/

/-- The block ends with a tail-recursive self-call. -/
def isTailSelfCall (b : BasicBlock) (selfName : String) : Bool :=
  match b.terminator with
  | .ret (some (.local retLocal)) =>
    match b.instructions.getLast? with
    | some (.assign dest (.call func _)) => func == selfName && dest == retLocal
    | _ => false
  | _ => false

/-- The first local with id `pl` is marked mutable. -/
def markMutable (pl : LocalId) : List MirLocal → List MirLocal
  | [] => []
  | l :: ls => if l.id == pl then { l with mutable := true } :: ls else l :: markMutable pl ls

/-- The first id above every declared local. -/
def nextId (locals : List MirLocal) : LocalId :=
  match (locals.map MirLocal.id).max? with
  | some m => m + 1
  | none => 0

/-- Declare a snapshot temporary for each parameter, from id `next` on. -/
def snapshotLocals : List LocalId → LocalId → List MirLocal → List MirLocal
  | [], _, locals => locals
  | pl :: pls, next, locals =>
    let ty := ((locals.find? fun l => l.id == pl).map MirLocal.ty).getD .i64
    snapshotLocals pls (next + 1) (locals ++ [{ id := next, name := none, ty, mutable := false }])

/-- The code that replaces a self-call: all reads, then all writes. -/
def loopBack (paramLocals : List LocalId) (next : LocalId) (callArgs : List Operand) :
    List Instruction :=
  let temps := List.range' next paramLocals.length
  (temps.zip callArgs).map (fun (temp, arg) => .assign temp (.use arg)) ++
    (paramLocals.zip temps).map fun (param, temp) => .assign param (.use (.local temp))

/-- The arguments of the self-call a block ends with, if the block is rewritten. -/
def tailCallArgs (f : MirFunction) (b : BasicBlock) : Option (List Operand) :=
  if isTailSelfCall b f.name then
    match b.instructions.getLast? with
    | some (.assign _ (.call _ args)) =>
      if args.length = f.paramLocals.length then some args else none
    | _ => none
  else none

/-- The loop over the blocks, with the next free local id and the locals declared so far. -/
def rewriteBlocks (f : MirFunction) :
    List BasicBlock → LocalId → List MirLocal → List BasicBlock × List MirLocal
  | [], _, locals => ([], locals)
  | b :: bs, next, locals =>
    match tailCallArgs f b with
    | some args =>
      let r := rewriteBlocks f bs (next + f.paramLocals.length)
        (snapshotLocals f.paramLocals next locals)
      ({ b with
          instructions := b.instructions.dropLast ++ loopBack f.paramLocals next args
          terminator := .goto 0 } :: r.1, r.2)
    | none =>
      let r := rewriteBlocks f bs next locals
      (b :: r.1, r.2)

namespace Tco

def optimizeFunction (f : MirFunction) : MirFunction :=
  if f.blocks.any fun b => isTailSelfCall b f.name then
    let locals := f.paramLocals.foldl (fun ls pl => markMutable pl ls) f.locals
    let r := rewriteBlocks f f.blocks (nextId locals) locals
    { f with blocks := r.1, locals := r.2 }
  else f

end Tco

/-- Run tail call optimization on every function in the module. -/
def optimizeTailCalls (M : MirModule) : MirModule :=
  { functions := M.functions.map Tco.optimizeFunction }

/-! ## What the pass changes -/

/-- What the pass is given: the entry block has id 0, locals are declared, and written before they
are used. -/
structure WellFormedFn (M : MirModule) (f : MirFunction) : Prop where
  entry : ∀ b, f.blocks.head? = some b → b.id = 0
  params : ∀ x ∈ f.paramLocals, x ∈ f.locals.map MirLocal.id
  declared : ∀ b ∈ f.blocks, ∀ inst ∈ b.instructions, ∀ x ∈ inst.uses, x ∈ f.locals.map MirLocal.id
  defined : DefinedBeforeUse M f

/-- The code of a function, and what the pass makes of it: a self-call at the end is replaced. -/
inductive CodeRel (f : MirFunction) :
    List Instruction → Terminator → List Instruction → Terminator → Prop
  | same (rest : List Instruction) (term : Terminator) : CodeRel f rest term rest term
  | tail (pre : List Instruction) (dest next : LocalId) (args : List Operand)
    (hargs : args.length = f.paramLocals.length) (hparams : ∀ x ∈ f.paramLocals, x < next)
    (hfresh : ∀ arg ∈ args, ∀ x ∈ arg.locals, x < next) :
    CodeRel f (pre ++ [.assign dest (.call f.name args)]) (.ret (some (.local dest)))
      (pre ++ loopBack f.paramLocals next args) (.goto 0)

/-- A block and what the pass makes of it. -/
def BlockRel (f : MirFunction) (b b' : BasicBlock) : Prop :=
  b'.id = b.id ∧ CodeRel f b.instructions b.terminator b'.instructions b'.terminator

theorem lt_nextId {locals : List MirLocal} {x : LocalId} (hx : x ∈ locals.map MirLocal.id) :
    x < nextId locals := by
  rcases hmax : (locals.map MirLocal.id).max? with _ | m
  · rw [List.max?_eq_none_iff.mp hmax] at hx
    cases hx
  · have := (List.max?_eq_some_iff.mp hmax).2 x hx
    rw [nextId, hmax]
    exact Nat.lt_succ_of_le this

theorem map_id_markMutable (pl : LocalId) (locals : List MirLocal) :
    (markMutable pl locals).map MirLocal.id = locals.map MirLocal.id := by
  induction locals with
  | nil => rfl
  | cons l ls ih =>
    simp only [markMutable]
    split
    · rfl
    · simp only [List.map_cons, ih]

theorem map_id_markAllMutable (pls : List LocalId) (locals : List MirLocal) :
    (pls.foldl (fun ls pl => markMutable pl ls) locals).map MirLocal.id =
      locals.map MirLocal.id := by
  induction pls generalizing locals with
  | nil => rfl
  | cons pl pls ih => rw [List.foldl_cons, ih, map_id_markMutable]

variable {b : BasicBlock}

theorem exists_of_isTailSelfCall {name : String} (h : isTailSelfCall b name = true) :
    ∃ pre dest args, b.instructions = pre ++ [.assign dest (.call name args)] ∧
      b.terminator = .ret (some (.local dest)) := by
  obtain ⟨id, insts, term⟩ := b
  simp only [isTailSelfCall] at h
  split at h <;> try contradiction
  split at h <;> try contradiction
  rename_i dest func args hlast
  simp only [Bool.and_eq_true, beq_iff_eq] at h
  obtain ⟨rfl, rfl⟩ := h
  obtain ⟨pre, hpre⟩ := List.getLast?_eq_some_iff.mp hlast
  exact ⟨pre, dest, args, hpre, rfl⟩

variable {f : MirFunction}

variable {args : List Operand}

theorem tailCallArgs_eq_some (h : tailCallArgs f b = some args) :
    ∃ pre dest, b.instructions = pre ++ [.assign dest (.call f.name args)] ∧
      b.terminator = .ret (some (.local dest)) ∧ args.length = f.paramLocals.length := by
  simp only [tailCallArgs] at h
  split at h
  · rename_i htail
    obtain ⟨pre, dest, args', hinsts, hterm⟩ := exists_of_isTailSelfCall htail
    simp only [hinsts, List.getLast?_concat, Option.ite_none_right_eq_some,
      Option.some.injEq] at h
    obtain ⟨hlen, rfl⟩ := h
    exact ⟨pre, dest, hinsts, hterm, hlen⟩
  · cases h

variable {bs : List BasicBlock}

theorem blockRel_rewriteBlocks {next : LocalId} (hparams : ∀ x ∈ f.paramLocals, x < next)
    (huses : ∀ b ∈ bs, ∀ inst ∈ b.instructions, ∀ x ∈ inst.uses, x < next) (locals : List MirLocal)
    : List.Forall₂ (BlockRel f) bs (rewriteBlocks f bs next locals).1 := by
  induction bs generalizing next locals with
  | nil => exact .nil
  | cons b bs ih =>
    have htail : ∀ b' ∈ bs, ∀ inst ∈ b'.instructions, ∀ x ∈ inst.uses, x < next :=
      fun b' hb' => huses b' (List.mem_cons_of_mem _ hb')
    rcases hargs : tailCallArgs f b with _ | args
    · simp only [rewriteBlocks, hargs]
      exact .cons ⟨rfl, .same _ _⟩ (ih hparams htail _)
    · obtain ⟨pre, dest, hinsts, hterm, hlen⟩ := tailCallArgs_eq_some hargs
      simp only [rewriteBlocks, hargs]
      refine .cons ⟨rfl, ?_⟩ (ih (fun x hx => ?_) (fun b' hb' inst hi x hx => ?_) _)
      · have hfresh : ∀ arg ∈ args, ∀ x ∈ arg.locals, x < next := by
          intro arg harg x hx
          refine huses b List.mem_cons_self (.assign dest (.call f.name args)) ?_ x ?_
          · simp [hinsts]
          · exact List.mem_append_left _ (List.mem_flatMap.mpr ⟨arg, harg, hx⟩)
        simpa [hinsts, hterm] using CodeRel.tail pre dest next args hlen hparams hfresh
      · exact Nat.lt_add_right _ (hparams x hx)
      · exact Nat.lt_add_right _ (htail b' hb' inst hi x hx)

namespace Tco

section Fields

variable (f : MirFunction)

@[simp] theorem optimizeFunction_name : (optimizeFunction f).name = f.name := by
  simp only [optimizeFunction]
  split <;> rfl

@[simp] theorem optimizeFunction_paramLocals :
    (optimizeFunction f).paramLocals = f.paramLocals := by
  simp only [optimizeFunction]
  split <;> rfl

@[simp] theorem optimizeFunction_isVoid : (optimizeFunction f).isVoid = f.isVoid := by
  simp only [optimizeFunction]
  split <;> rfl

end Fields

/-- Block by block, the pass keeps the id and changes self-calls only. -/
theorem blockRel_optimizeFunction {M : MirModule} (hf : WellFormedFn M f) :
    List.Forall₂ (BlockRel f) f.blocks (optimizeFunction f).blocks := by
  have hsame : ∀ bs : List BasicBlock, List.Forall₂ (BlockRel f) bs bs := fun bs =>
    List.forall₂_same.mpr fun b _ => ⟨rfl, .same _ _⟩
  have hlt : ∀ x ∈ f.locals.map MirLocal.id,
      x < nextId (f.paramLocals.foldl (fun ls pl => markMutable pl ls) f.locals) := by
    intro x hx
    refine lt_nextId ?_
    rwa [map_id_markAllMutable]
  simp only [optimizeFunction]
  split
  · exact blockRel_rewriteBlocks (fun x hx => hlt x (hf.params x hx))
      (fun b hb inst hi x hx => hlt x (hf.declared b hb inst hi x hx)) _
  · exact hsame _

end Tco

theorem BlockRel.find? {bs' : List BasicBlock} (h : List.Forall₂ (BlockRel f) bs bs') (id : BlockId)
    :
    (bs.find? (fun b => b.id == id) = none ∧ bs'.find? (fun b => b.id == id) = none) ∨
      ∃ b b', bs.find? (fun b => b.id == id) = some b ∧
        bs'.find? (fun b => b.id == id) = some b' ∧ BlockRel f b b' := by
  induction h with
  | nil => exact .inl ⟨rfl, rfl⟩
  | @cons b b' bs bs' hb _ ih =>
    by_cases hid : b.id = id
    · exact .inr ⟨b, b', by simp [hid], by simp [hb.1, hid], hb⟩
    · simpa [List.find?_cons, hb.1, hid] using ih

theorem BlockRel.head? {bs' : List BasicBlock} (h : List.Forall₂ (BlockRel f) bs bs') :
    (bs.head? = none ∧ bs'.head? = none) ∨
      ∃ b b', bs.head? = some b ∧ bs'.head? = some b' ∧ BlockRel f b b' := by
  rcases h with _ | ⟨hb, _⟩
  · exact .inl ⟨rfl, rfl⟩
  · exact .inr ⟨_, _, rfl, rfl, hb⟩

/-! ## The jump back binds the parameters -/

section LoopBack

variable {V W : Type} {I : Interp V W ℕ}

/-- The jump back to the entry block: the parameters end up bound to the values of the arguments,
permuted or repeated as they may be, and nothing is observed. -/
theorem loopBack_quietPlus {M : MirModule} (hb : f.findBlock 0 = some b) {next : LocalId}
    (hargs : args.length = f.paramLocals.length) (hparams : ∀ x ∈ f.paramLocals, x < next)
    (hfresh : ∀ arg ∈ args, ∀ x ∈ arg.locals, x < next) {a : Activation V}
    (hslots : ∀ x, a.slots x = none) (at_ : BlockId) (calls : List (Site × (LocalId → Option ℕ)))
    (stack : List (Frame V × LocalId)) (m : Memory W) :
    ∃ regs, Machine.QuietPlus (step I M) (fun c => c.mem.world)
        ⟨⟨f, at_, loopBack f.paramLocals next args, .goto 0, a, calls⟩, stack, m⟩
        ⟨⟨f, b.id, b.instructions, b.terminator, ⟨regs, a.slots⟩, calls⟩, stack, m⟩ ∧
      ∀ x ∈ f.paramLocals, regs x = bindParams I f.paramLocals (args.map (a.read I m)) x := by
  obtain ⟨temps, htemps⟩ : ∃ temps, temps = List.range' next f.paramLocals.length := ⟨_, rfl⟩
  have hlen : temps.length = args.length := by rw [htemps, List.length_range', hargs]
  have hge : ∀ t ∈ temps, next ≤ t := fun t ht => by
    rw [htemps, List.mem_range'_1] at ht
    exact ht.1
  have hnodup : temps.Nodup := htemps ▸ List.nodup_range'
  -- all reads, then all writes: neither list of copies writes what it reads
  have hreads : ∀ p ∈ temps.zip args, ∀ x ∈ p.2.locals, ∀ q ∈ temps.zip args, q.1 ≠ x := by
    rintro ⟨t, op⟩ hp x hx ⟨t', op'⟩ hq rfl
    have h₁ := hfresh op (List.of_mem_zip hp).2 _ hx
    have h₂ := hge _ (List.of_mem_zip hq).1
    exact absurd h₁ (Nat.not_lt.mpr h₂)
  have hwrites : ∀ p ∈ f.paramLocals.zip (temps.map Operand.local), ∀ x ∈ p.2.locals,
      ∀ q ∈ f.paramLocals.zip (temps.map Operand.local), q.1 ≠ x := by
    rintro ⟨y, op⟩ hp x hx ⟨y', op'⟩ hq rfl
    obtain ⟨t, ht, rfl⟩ := List.mem_map.mp (List.of_mem_zip hp).2
    obtain rfl := List.mem_singleton.mp hx
    exact absurd (hparams _ (List.of_mem_zip hq).1) (Nat.not_lt.mpr (hge _ ht))
  have hcode : loopBack f.paramLocals next args =
      (temps.zip args).map (fun p => .assign p.1 (.use p.2)) ++
        ((f.paramLocals.zip (temps.map Operand.local)).map (fun p => .assign p.1 (.use p.2)) ++
          []) := by
    simp [loopBack, htemps, List.zip_map_right]
  let vals := args.map (a.read I m)
  let regs₁ := writeRegs a.regs (temps.zip vals)
  have hvals : temps.map regs₁ = vals := map_writeRegs_zip hnodup (by simp [vals, hlen]) _
  have hphase₁ : (temps.zip args).map (fun p => (p.1, a.read I m p.2)) = temps.zip vals := by
    simp only [vals, List.zip_map_right]
    rfl
  have hphase₂ : (f.paramLocals.zip (temps.map Operand.local)).map
      (fun p => (p.1, (⟨regs₁, a.slots⟩ : Activation V).read I m p.2)) =
        f.paramLocals.zip vals := by
    have hread : ∀ t, (⟨regs₁, a.slots⟩ : Activation V).read I m (.local t) = regs₁ t := by
      intro t
      simp [Activation.read, readOperand, readLocal, Activation.places, hslots, Activation.state]
    rw [← hvals]
    simp only [List.zip_map_right, List.map_map, Function.comp_def, Prod.map, hread]
    rfl
  refine ⟨writeRegs regs₁ (f.paramLocals.zip vals), ?_, fun x hx => ?_⟩
  · refine ⟨⟨⟨f, at_, [], .goto 0, ⟨writeRegs regs₁ (f.paramLocals.zip vals), a.slots⟩, calls⟩,
      stack, m⟩, ?_, ?_⟩
    · rw [hcode]
      have h₁ := quiet_copies (I := I) M
        ((f.paramLocals.zip (temps.map Operand.local)).map (fun p => .assign p.1 (.use p.2)) ++ [])
        ⟨f, at_, [], .goto 0, a, calls⟩ (fun _ _ => hslots _) hreads stack m
      have h₂ := quiet_copies (I := I) M [] ⟨f, at_, [], .goto 0, ⟨regs₁, a.slots⟩, calls⟩
        (fun _ _ => hslots _) hwrites stack m
      rw [hphase₁] at h₁
      rw [hphase₂] at h₂
      exact h₁.trans h₂
    · simp only [step, nextBlock, hb]
      rfl
  · have hkeys : (f.paramLocals.zip vals).map Prod.fst = f.paramLocals :=
      List.map_fst_zip (by simp [vals, hargs])
    have hbind := writeRegs_rename Function.injective_id (hkeys.symm ▸ hx) regs₁
      fun _ => I.const .none
    simp only [id, Prod.mk.eta, List.map_id'] at hbind
    exact hbind

end LoopBack

/-! ## The simulation -/

/-- The activation about to make a self-call that the pass replaces has not taken the address of
one of its locals. -/
def TailSafe {V W : Type} (c : Config V W) : Prop :=
  ∀ dest args, c.top.rest = [.assign dest (.call c.top.fn.name args)] →
    c.top.term = .ret (some (.local dest)) → args.length = c.top.fn.paramLocals.length →
    ∀ x, c.top.act.slots x = none

/-- A frame of the recursion and the frame of the loop: the registers in `D` agree, and the rest of
the code needs no more than those in `E`. -/
structure FrameRel {V : Type} (M : MirModule) (D E : Set LocalId) (fr fr' : Frame V) : Prop where
  fn : fr'.fn = Tco.optimizeFunction fr.fn
  body : ∃ b, M.findBody fr.fn.name = some (fr.fn, b)
  code : CodeRel fr.fn fr.rest fr.term fr'.rest fr'.term
  defined : CodeDefined M fr.fn E fr.rest fr.term
  act : Renames id D Set.univ fr.act fr'.act

/-- The stack of the recursion below an activation of `g`, and that of the loop: frames that only
wait to return what a self-call returns have no counterpart. -/
inductive StackRel {V : Type} (M : MirModule) :
    MirFunction → List (Frame V × LocalId) → List (Frame V × LocalId) → Prop
  | nil (g : MirFunction) : StackRel M g [] []
  | both {g : MirFunction} {D : Set LocalId} {fr fr' : Frame V} {dest : LocalId}
    {stack stack' : List (Frame V × LocalId)}
    (hframe : FrameRel M D (D ∪ {x | x ∈ g.writes dest}) fr fr')
    (hstack : StackRel M fr.fn stack stack') :
    StackRel M g ((fr, dest) :: stack) ((fr', dest) :: stack')
  | tail {g : MirFunction} {fr : Frame V} {dest : LocalId} {stack stack' : List (Frame V × LocalId)}
    (hfn : fr.fn = g) (hrest : fr.rest = []) (hterm : fr.term = .ret (some (.local dest)))
    (hslots : ∀ x, fr.act.slots x = none) (hstack : StackRel M g stack stack') :
    StackRel M g ((fr, dest) :: stack) stack'

section Simulation

variable {V W : Type} (I : Interp V W ℕ) (M : MirModule)

/-- Both machines execute corresponding code. -/
structure Running (c c' : Config V W) : Prop where
  mem : c'.mem = c.mem
  top : ∃ D, FrameRel M D D c.top c'.top
  stack : StackRel M c.top.fn c.stack c'.stack

/-- Both machines are about to return the same value. -/
structure Returning (c c' : Config V W) : Prop where
  mem : c'.mem = c.mem
  rest : c.top.rest = []
  rest' : c'.top.rest = []
  value : ∃ v, c.top.result I c.mem = some v ∧ c'.top.result I c'.mem = some v
  stack : StackRel M c.top.fn c.stack c'.stack

/-- The relation of the simulation. While the recursion unwinds, its stack shrinks. -/
def TcoRel (k : ℕ) (c c' : Config V W) : Prop :=
  k = c.stack.length ∧ (Running M c c' ∨ Returning I M c c') ∧
    ∀ d, Machine.Reaches (step I M) c d → TailSafe d

variable {I M}

variable {D : Set LocalId}

theorem FrameRel.read {E : Set LocalId} {fr fr' : Frame V} (h : FrameRel M D E fr fr')
    (m : Memory W) {op : Operand} (hop : ∀ x ∈ op.locals, x ∈ D) :
    fr'.act.read I m op = fr.act.read I m op := by
  have hread : fr'.act.read I m (op.rename id) = fr.act.read I m op :=
    h.act.read I fun x hx => ⟨hop x hx, Set.mem_univ x⟩
  rwa [Operand.rename_id] at hread

theorem FrameRel.resume {fr fr' : Frame V} {g : MirFunction} {dest : LocalId}
    (h : FrameRel M D (D ∪ {x | x ∈ g.writes dest}) fr fr') {v : Option V}
    (hv : g.isVoid = true ∧ v = none ∨ g.isVoid = false ∧ ∃ x, v = some x) (a a' : Activation V)
    (m : Memory W) :
    (fr'.resume I a' dest v m).2 = (fr.resume I a dest v m).2 ∧
      ∃ E, FrameRel M E E (fr.resume I a dest v m).1 (fr'.resume I a' dest v m).1 := by
  obtain ⟨hfn, hbody, hcode, hdefined, hact⟩ := h
  rcases hv with ⟨hvoid, rfl⟩ | ⟨hvoid, x, rfl⟩
  · simp only [MirFunction.writes, hvoid, if_true, List.not_mem_nil, Set.ofPred_false,
      Set.union_empty] at hdefined
    exact ⟨rfl, D, hfn, hbody, hcode, hdefined, hact⟩
  · simp only [MirFunction.writes, hvoid, Bool.false_eq_true, if_false,
      List.mem_singleton] at hdefined
    obtain ⟨hmem, hren⟩ := hact.write I Function.injective_id (Set.mem_univ dest) m x
    refine ⟨hmem, _, hfn, hbody, hcode, hdefined, hren.mono ?_⟩
    rintro y (hy | hy)
    · exact Set.mem_insert_of_mem _ hy
    · exact hy ▸ Set.mem_insert _ _

/-- Returning, the recursion pops a frame, which the loop does too unless that frame only waited
for this value. -/
theorem Returning.step {c c' : Config V W} (h : Returning I M c c') :
    (∀ o, step I M c = .inr o → step I (optimizeTailCalls M) c' = .inr o) ∧
      ∀ d, step I M c = .inl d →
        (∃ d', step I (optimizeTailCalls M) c' = .inl d' ∧ Running M d d') ∨
          d.stack.length < c.stack.length ∧ Returning I M d c' := by
  obtain ⟨top, stack, m⟩ := c
  obtain ⟨top', stack', m'⟩ := c'
  obtain ⟨hmem, hrest, hrest', ⟨v, hv, hv'⟩, hstack⟩ := h
  obtain rfl : m' = m := hmem
  simp only at hrest hrest' hv hv' hstack
  rw [step_of_result hrest hv, step_of_result hrest' hv']
  rcases hstack with _ | ⟨hframe, hstack⟩ | ⟨hfn, hr, ht, hs, hstack⟩
  case nil => exact ⟨fun o ho => ho, nofun⟩
  case both D fr fr' dest stack stack' =>
    refine ⟨nofun, fun d hd => .inl ⟨_, rfl, ?_⟩⟩
    obtain rfl := Sum.inl.inj hd
    obtain ⟨hm, E, hrel⟩ := hframe.resume (I := I) (Frame.result_cases hv) top.act top'.act m'
    exact ⟨hm, ⟨E, hrel⟩, hstack⟩
  case tail fr dest stack =>
    refine ⟨nofun, fun d hd => .inr ?_⟩
    obtain rfl := Sum.inl.inj hd
    refine ⟨Nat.lt_succ_self _, ?_⟩
    rcases Frame.result_cases hv with ⟨hvoid, rfl⟩ | ⟨hvoid, x, rfl⟩
    · refine ⟨rfl, hr, hrest', ⟨none, ?_, hv'⟩, hfn ▸ hstack⟩
      simp only [Frame.resume, Frame.result, ht, hfn, hvoid, if_true]
    · have hstill : (fr.resume I top.act dest (some x) m').2 = m' := by
        simp [Frame.resume, Activation.receive, Activation.write, writeLocal, Activation.places, hs,
          Activation.state]
      refine ⟨hstill.symm, hr, hrest', ⟨some x, ?_, hv'⟩, hfn ▸ hstack⟩
      simp [Frame.resume, Activation.receive, Activation.write, Frame.result, ht, hfn, hvoid,
        Activation.read, readOperand, readLocal, writeLocal, Activation.places, hs,
        Activation.state]

theorem CodeRel.split {rest rest' : List Instruction} {term term' : Terminator}
    (h : CodeRel f rest term rest' term') :
    (rest = [] ∧ rest' = [] ∧ term' = term) ∨
      (∃ inst r r', rest = inst :: r ∧ rest' = inst :: r' ∧ CodeRel f r term r' term') ∨
      ∃ dest next args, rest = [.assign dest (.call f.name args)] ∧
        term = .ret (some (.local dest)) ∧ rest' = loopBack f.paramLocals next args ∧
        term' = .goto 0 ∧ args.length = f.paramLocals.length ∧
        (∀ x ∈ f.paramLocals, x < next) ∧ ∀ arg ∈ args, ∀ x ∈ arg.locals, x < next := by
  rcases h with _ | ⟨pre, dest, next, args, hargs, hparams, hfresh⟩
  · rcases rest with _ | ⟨inst, r⟩
    · exact .inl ⟨rfl, rfl, rfl⟩
    · exact .inr (.inl ⟨inst, r, r, rfl, rfl, .same _ _⟩)
  · rcases pre with _ | ⟨inst, pre⟩
    · exact .inr (.inr ⟨dest, next, args, rfl, rfl, rfl, rfl, hargs, hparams, hfresh⟩)
    · exact .inr (.inl ⟨inst, _, _, rfl, rfl, .tail pre dest next args hargs hparams hfresh⟩)

section

variable (hM : ∀ f ∈ M.functions, WellFormedFn M f)

include hM

theorem findBody_optimizeTailCalls (name : String) :
    (M.findBody name = none ∧ (optimizeTailCalls M).findBody name = none) ∨
      ∃ f b b', M.findBody name = some (f, b) ∧
        (optimizeTailCalls M).findBody name = some (Tco.optimizeFunction f, b') ∧
        BlockRel f b b' := by
  have hfind : (optimizeTailCalls M).functions.find? (fun f => f.name == name) =
      (M.functions.find? fun f => f.name == name).map Tco.optimizeFunction := by
    simp only [optimizeTailCalls, List.find?_map, Function.comp_def, Tco.optimizeFunction_name]
  simp only [MirModule.findBody, hfind]
  rcases hf : M.functions.find? fun f => f.name == name with _ | f
  · exact .inl (by simp [hf])
  · have hwf := hM f (List.mem_of_find?_eq_some hf)
    rcases BlockRel.head? (Tco.blockRel_optimizeFunction hwf) with ⟨h, h'⟩ | ⟨b, b', h, h', hb⟩
    · exact .inl (by simp [hf, h, h'])
    · exact .inr ⟨f, b, b', by simp [hf, h], by simp [hf, h'], hb⟩

theorem FrameRel.enter {name : String} {b' : BasicBlock} (hbody : M.findBody name = some (f, b))
    (hb : BlockRel f b b') (vals : List V) :
    FrameRel M {x | x ∈ f.paramLocals} {x | x ∈ f.paramLocals} (Frame.enter I f b vals)
      (Frame.enter I (Tco.optimizeFunction f) b' vals) := by
  obtain ⟨hmem, rfl, hhead⟩ := findBody_eq_some hbody
  have hfind : f.findBlock b.id = some b := by
    obtain ⟨bs, hbs⟩ := List.head?_eq_some_iff.mp hhead
    simp [MirFunction.findBlock, hbs]
  refine ⟨rfl, ⟨b, hbody⟩, hb.2, .of_findBlock (hM f hmem).defined (.entry hhead) hfind, ?_⟩
  simp only [Frame.enter, Tco.optimizeFunction_paramLocals]
  exact ⟨fun _ _ _ => rfl, fun _ _ => rfl⟩

theorem callOf_optimizeTailCalls (inst : Instruction) :
    (M.callOf inst = none ∧ (optimizeTailCalls M).callOf inst = none) ∨
      ∃ name dest f b b' args, inst = .assign dest (.call name args) ∧
        M.findBody name = some (f, b) ∧ M.callOf inst = some (dest, f, b, args) ∧
        (optimizeTailCalls M).callOf inst = some (dest, Tco.optimizeFunction f, b', args) ∧
        BlockRel f b b' := by
  simp only [MirModule.callOf]
  split
  · rename_i dest name args
    rcases findBody_optimizeTailCalls hM name with ⟨h, h'⟩ | ⟨f, b, b', h, h', hb⟩
    · exact .inl (by simp [h, h'])
    · exact .inr ⟨name, dest, f, b, b', args, rfl, h, by simp [h], by simp [h'], hb⟩
  · exact .inl ⟨rfl, rfl⟩

/-- One instruction that both codes share. -/
theorem Running.step_inst {c c' : Config V W} (hmem : c'.mem = c.mem)
    (htop : FrameRel M D D c.top c'.top) (hstack : StackRel M c.top.fn c.stack c'.stack)
    {inst : Instruction} {r r' : List Instruction} (hr : c.top.rest = inst :: r)
    (hr' : c'.top.rest = inst :: r') (hcode : CodeRel c.top.fn r c.top.term r' c'.top.term) :
    (∀ o, step I M c = .inr o → step I (optimizeTailCalls M) c' = .inr o) ∧
      ∀ d, step I M c = .inl d →
        ∃ d', step I (optimizeTailCalls M) c' = .inl d' ∧ Running M d d' := by
  have hdef := htop.defined
  rw [hr] at hdef
  have huses : ∀ x ∈ inst.uses, x ∈ D ∧ x ∈ Set.univ := fun x hx =>
    ⟨hdef.uses.1 x hx, Set.mem_univ x⟩
  simp only [step, hr, hr']
  rcases callOf_optimizeTailCalls hM inst with
    ⟨hnone, hnone'⟩ | ⟨name, dest, f, b, b', args, rfl, hbody, hcall, hcall', hb⟩
  · rw [hnone, hnone', hmem]
    rcases htop.act.execIn I (m := c.mem) Function.injective_id huses
      (fun _ _ => Set.mem_univ _) with ⟨e, he, he'⟩ | ⟨a, a', n, ha, ha', hact⟩
    · rw [Instruction.rename_id] at he'
      simp only [he, he']
      exact ⟨fun o ho => ho, (by rintro _ ⟨⟩)⟩
    · rw [Instruction.rename_id] at ha'
      simp only [ha, ha']
      refine ⟨(by rintro _ ⟨⟩), fun d hd => ⟨_, rfl, ?_⟩⟩
      obtain rfl := Sum.inl.inj hd
      refine ⟨rfl, ⟨_, htop.fn, htop.body, hcode, hdef.tail, ?_⟩, hstack⟩
      simpa [MirModule.defs, hnone] using hact
  · simp only [hcall, hcall']
    refine ⟨(by rintro _ ⟨⟩), fun d hd => ⟨_, rfl, ?_⟩⟩
    obtain rfl := Sum.inl.inj hd
    have hvals : args.map (c'.top.act.read I c'.mem) = args.map (c.top.act.read I c.mem) := by
      rw [hmem]
      refine List.map_congr_left fun op hop => htop.read c.mem fun x hx => ?_
      exact (huses x (List.mem_append_left _ (List.mem_flatMap.mpr ⟨op, hop, hx⟩))).1
    rw [hvals]
    have htail := hdef.tail
    simp only [MirModule.defs, hcall] at htail
    exact ⟨hmem, ⟨_, FrameRel.enter hM hbody hb _⟩,
      .both ⟨htop.fn, htop.body, hcode, htail, htop.act⟩ hstack⟩

/-- The end of a block. -/
theorem Running.step_block {c c' : Config V W} (hmem : c'.mem = c.mem)
    (htop : FrameRel M D D c.top c'.top) (hstack : StackRel M c.top.fn c.stack c'.stack)
    (hr : c.top.rest = []) (hr' : c'.top.rest = []) (hterm : c'.top.term = c.top.term) :
    (∀ o, step I M c = .inr o → step I (optimizeTailCalls M) c' = .inr o) ∧
      ∀ d, step I M c = .inl d →
        (∃ d', step I (optimizeTailCalls M) c' = .inl d' ∧ Running M d d') ∨
          d.stack.length < c.stack.length ∧ Returning I M d c' := by
  have hdef := htop.defined
  rw [hr] at hdef
  have hread : ∀ op ∈ c.top.fn.needed c.top.term,
      c'.top.act.read I c'.mem op = c.top.act.read I c.mem op := by
    intro op hop
    rw [hmem]
    exact htop.read c.mem (hdef.uses op hop)
  have hisVoid : c'.top.fn.isVoid = c.top.fn.isVoid := by
    rw [htop.fn, Tco.optimizeFunction_isVoid]
  have hresult := Frame.result_congr hisVoid hterm hread
  have hnext := nextBlock_congr_needed (I := I) hterm hread
  rcases hv : c.top.result I c.mem with _ | v
  · simp only [step, hr, hr', hnext, hresult, hv]
    rw [hmem]
    rcases hn : nextBlock I c.top.act.places (c.top.act.state c.mem) c.top.term with _ | id
    · exact ⟨fun o ho => ho, (by rintro _ ⟨⟩)⟩
    · obtain ⟨b₀, hbody⟩ := htop.body
      have hwf := hM c.top.fn (findBody_eq_some hbody).1
      have hblocks : (c.top.fn.findBlock id = none ∧ c'.top.fn.findBlock id = none) ∨
          ∃ b b', c.top.fn.findBlock id = some b ∧ c'.top.fn.findBlock id = some b' ∧
            BlockRel c.top.fn b b' := by
        rw [htop.fn]
        exact BlockRel.find? (Tco.blockRel_optimizeFunction hwf) id
      rcases hblocks with ⟨h, h'⟩ | ⟨b, b', h, h', hb⟩
      · simp only [h, h']
        exact ⟨fun o ho => ho, (by rintro _ ⟨⟩)⟩
      · simp only [h, h']
        refine ⟨(by rintro _ ⟨⟩), fun d hd => .inl ⟨_, rfl, ?_⟩⟩
        obtain rfl := Sum.inl.inj hd
        have hpath := hdef.targets id (nextBlock_mem_targets hn)
        exact ⟨rfl, ⟨D, htop.fn, ⟨b₀, hbody⟩, hb.2, .of_findBlock hwf.defined hpath h, htop.act⟩,
          hstack⟩
  · exact Returning.step ⟨hmem, hr, hr', ⟨v, hv, hresult.trans hv⟩, hstack⟩

/-- A self-call that the pass replaced. -/
theorem Running.step_tail {c c' : Config V W} (hmem : c'.mem = c.mem)
    (htop : FrameRel M D D c.top c'.top) (hstack : StackRel M c.top.fn c.stack c'.stack)
    (hsafe : TailSafe c) {dest next : LocalId}
    (hr : c.top.rest = [.assign dest (.call c.top.fn.name args)])
    (hterm : c.top.term = .ret (some (.local dest)))
    (hr' : c'.top.rest = loopBack c.top.fn.paramLocals next args) (hterm' : c'.top.term = .goto 0)
    (hargs : args.length = c.top.fn.paramLocals.length)
    (hparams : ∀ x ∈ c.top.fn.paramLocals, x < next)
    (hfresh : ∀ arg ∈ args, ∀ x ∈ arg.locals, x < next) :
    ∃ d d', step I M c = .inl d ∧
      Machine.QuietPlus (step I (optimizeTailCalls M)) (fun c => c.mem.world) c' d' ∧
      Running M d d' := by
  obtain ⟨⟨f, id, rest, term, a, calls⟩, stack, m⟩ := c
  obtain ⟨⟨f', id', rest', term', a', calls'⟩, stack', m'⟩ := c'
  obtain ⟨b, hbody⟩ := htop.body
  obtain ⟨hf, -, hhead⟩ := findBody_eq_some hbody
  have hslots := hsafe dest args hr hterm hargs
  obtain rfl : m' = m := hmem
  obtain rfl : f' = Tco.optimizeFunction f := htop.fn
  simp only at hr hterm hr' hterm' hargs hparams hslots hbody hf hhead hstack
  subst hr hterm hr' hterm'
  have hslots' : ∀ x, a'.slots x = none := fun x =>
    (htop.act.slots x (Set.mem_univ x)).trans (hslots x)
  -- the entry block of the loop
  obtain ⟨hnone, -⟩ | ⟨b₁, b', hb₁, hb', hrel⟩ :=
    BlockRel.head? (Tco.blockRel_optimizeFunction (hM f hf))
  · exact absurd (hnone.symm.trans hhead) (by simp)
  obtain rfl : b₁ = b := Option.some.inj (hb₁.symm.trans hhead)
  have hfind : (Tco.optimizeFunction f).findBlock 0 = some b' := by
    obtain ⟨bs, hbs⟩ := List.head?_eq_some_iff.mp hb'
    have hid : b'.id = 0 := hrel.1.trans ((hM f hf).entry b₁ hhead)
    simp [MirFunction.findBlock, hbs, hid]
  obtain ⟨regs, hjump, hregs⟩ := loopBack_quietPlus (I := I) (M := optimizeTailCalls M) hfind
    (by simpa using hargs) (by simpa using hparams) hfresh hslots' id' calls' stack' m'
  simp only [Tco.optimizeFunction_paramLocals] at hjump hregs
  have hvals : args.map (a'.read I m') = args.map (a.read I m') := by
    refine List.map_congr_left fun op hop => htop.read m' fun x hx => ?_
    exact htop.defined.uses.1 x (List.mem_append_left _ (List.mem_flatMap.mpr ⟨op, hop, hx⟩))
  rw [hvals] at hregs
  refine ⟨⟨Frame.enter I f b₁ (args.map (a.read I m')),
    (⟨f, id, [], .ret (some (.local dest)), a, calls⟩, dest) :: stack, m'⟩, _, ?_, hjump, rfl,
    ⟨{x | x ∈ f.paramLocals}, ?_⟩, ?_⟩
  · simp only [step, MirModule.callOf, hbody, Option.map_some]
  · obtain ⟨hfn, hbody, hcode, hdef, -⟩ := FrameRel.enter (I := I) hM hbody hrel
      (args.map (a.read I m'))
    exact ⟨hfn, hbody, hcode, hdef, fun x hx _ => hregs x hx, fun x _ => hslots' x⟩
  · exact .tail rfl rfl rfl hslots hstack

end

theorem Running.step (hM : ∀ f ∈ M.functions, WellFormedFn M f) {c c' : Config V W}
    (h : Running M c c') (hsafe : TailSafe c) :
    (∀ o, step I M c = .inr o → step I (optimizeTailCalls M) c' = .inr o) ∧
      ∀ d, step I M c = .inl d →
        (∃ d', Machine.QuietPlus (step I (optimizeTailCalls M)) (fun c => c.mem.world) c' d' ∧
          Running M d d') ∨
          d.stack.length < c.stack.length ∧ Returning I M d c' := by
  obtain ⟨hmem, ⟨D, htop⟩, hstack⟩ := h
  rcases htop.code.split with ⟨hr, hr', hterm⟩ | ⟨inst, r, r', hr, hr', hcode⟩ |
    ⟨dest, next, args, hr, hterm, hr', hterm', hargs, hparams, hfresh⟩
  · obtain ⟨hdone, hnext⟩ := Running.step_block (I := I) hM hmem htop hstack hr hr' hterm
    refine ⟨hdone, fun d hd => ?_⟩
    rcases hnext d hd with ⟨d', hd', hrun⟩ | hret
    · exact .inl ⟨d', .single hd', hrun⟩
    · exact .inr hret
  · obtain ⟨hdone, hnext⟩ := Running.step_inst (I := I) hM hmem htop hstack hr hr' hcode
    refine ⟨hdone, fun d hd => ?_⟩
    obtain ⟨d', hd', hrun⟩ := hnext d hd
    exact .inl ⟨d', .single hd', hrun⟩
  · obtain ⟨d, d', hd, hq, hrun⟩ := Running.step_tail (I := I) hM hmem htop hstack hsafe hr hterm
      hr' hterm' hargs hparams hfresh
    refine ⟨fun o ho => absurd (hd.symm.trans ho) (by simp), fun e he => ?_⟩
    obtain rfl := Sum.inl.inj (hd.symm.trans he)
    exact .inl ⟨d', hq, hrun⟩

/-- **The loop simulates the recursion.** -/
theorem tco_simulation (hM : ∀ f ∈ M.functions, WellFormedFn M f) :
    Machine.StarSimulation (Kryos.step I M) (Kryos.step I (optimizeTailCalls M))
      (fun c => c.mem.world) (fun c => c.mem.world) (TcoRel I M) where
  obs_eq := by
    rintro k c c' ⟨-, hrun | hret, -⟩
    · rw [hrun.mem]
    · rw [hret.mem]
  next := by
    rintro k c c' d ⟨rfl, hrel, hsafe⟩ hd
    have hsafe' : ∀ e, Machine.Reaches (Kryos.step I M) d e → TailSafe e :=
      fun e he => hsafe e (he.head hd)
    rcases hrel with hrun | hret
    · rcases (hrun.step hM (hsafe c .refl)).2 d hd with ⟨d', hq, hrun'⟩ | ⟨hlt, hret⟩
      · exact .inl ⟨d', _, hq, rfl, .inl hrun', hsafe'⟩
      · exact .inr ⟨_, hlt, rfl, .inr hret, hsafe'⟩
    · rcases hret.step.2 d hd with ⟨d', hd', hrun'⟩ | ⟨hlt, hret'⟩
      · exact .inl ⟨d', _, .single hd', rfl, .inl hrun', hsafe'⟩
      · exact .inr ⟨_, hlt, rfl, .inr hret', hsafe'⟩
  done := by
    rintro k c c' o ⟨-, hrun | hret, hsafe⟩ ho
    · exact (hrun.step hM (hsafe c .refl)).1 o ho
    · exact hret.step.1 o ho

end Simulation

/-- **Tail-call optimisation agrees with recursion.** Called with any arguments, in any world, a
function of the optimised module ends as in the original module, with the same value and world, or
panics alike, or neither ends; and both pass through the same worlds on the way. The world is
arbitrary, so it may record every external call and store. The run of the original may make no
self-call in tail position from an activation that has taken the address of one of its locals. -/
theorem tail_calls_agree {V W : Type} (I : Interp V W ℕ) {M : MirModule}
    (hM : ∀ f ∈ M.functions, WellFormedFn M f) {name : String} {args : List V} {m : Memory W}
    {c : Config V W} (hc : start I M name args m = some c)
    (hsafe : ∀ d, Machine.Reaches (step I M) c d → TailSafe d) :
    ∃ c', start I (optimizeTailCalls M) name args m = some c' ∧
      (∀ o, Machine.Terminates (step I M) c o ↔
        Machine.Terminates (step I (optimizeTailCalls M)) c' o) ∧
      ∀ w, Machine.Shows (step I M) (fun c => c.mem.world) c w ↔
        Machine.Shows (step I (optimizeTailCalls M)) (fun c => c.mem.world) c' w := by
  obtain ⟨⟨f, b⟩, hbody, rfl⟩ := Option.map_eq_some_iff.mp hc
  rcases findBody_optimizeTailCalls hM name with ⟨hnone, -⟩ | ⟨f₁, b₁, b', hbody₁, hbody', hb⟩
  · exact absurd (hnone.symm.trans hbody) (by simp)
  obtain ⟨rfl, rfl⟩ : f₁ = f ∧ b₁ = b := by simpa [hbody₁] using hbody
  refine ⟨⟨Frame.enter I (Tco.optimizeFunction f₁) b' args, [], m⟩, by simp [start, hbody'], ?_⟩
  have hrel : TcoRel I M 0 ⟨Frame.enter I f₁ b₁ args, [], m⟩
      ⟨Frame.enter I (Tco.optimizeFunction f₁) b' args, [], m⟩ :=
    ⟨rfl, .inl ⟨rfl, ⟨_, FrameRel.enter hM hbody hb args⟩, .nil _⟩, hsafe⟩
  exact ⟨(tco_simulation hM).terminates_iff hrel, (tco_simulation hM).shows_iff hrel⟩

/-- A module that takes no address is safe, whatever it is called with. -/
theorem tailSafe_of_no_addresses {V W : Type} {I : Interp V W ℕ} {M : MirModule}
    (hM : ∀ f ∈ M.functions, ∀ b ∈ f.blocks, ∀ inst ∈ b.instructions, inst.addressed = [])
    {name : String} {args : List V} {m : Memory W} {c d : Config V W}
    (hc : start I M name args m = some c) (hd : Machine.Reaches (step I M) c d) : TailSafe d := by
  intro dest args' _ _ _
  exact (((NoAddresses.start hM hc).reaches hM hd) d.top List.mem_cons_self).slots

/-! ## Two functions -/

/-- `swap(a, b, n)` exchanges its first two arguments `n` times. -/
def swapMany : MirFunction where
  name := "swap"
  params := [⟨0, .i64⟩, ⟨1, .i64⟩, ⟨2, .i64⟩]
  retTy := .i64
  blocks := [
    ⟨0, [.assign 3 (.binOp .eq (.local 2) (.constant (.int 0)))], .branch (.local 3) 1 2⟩,
    ⟨1, [], .ret (some (.local 0))⟩,
    ⟨2, [.assign 4 (.binOp .sub (.local 2) (.constant (.int 1))),
        .assign 5 (.call "swap" [.local 1, .local 0, .local 4])], .ret (some (.local 5))⟩]
  locals := (List.range 6).map fun i => ⟨i, none, .i64, false⟩
  attributes := {}

/-- `f(p, n)` passes the address of its own `n` to the next activation, and the last activation
reads the address it was given. -/
def lastArgument : MirFunction where
  name := "f"
  params := [⟨0, .ptr .i64⟩, ⟨1, .i64⟩]
  retTy := .i64
  blocks := [
    ⟨0, [.assign 2 (.binOp .eq (.local 1) (.constant (.int 0)))], .branch (.local 2) 1 2⟩,
    ⟨1, [.assign 6 (.deref (.local 0))], .ret (some (.local 6))⟩,
    ⟨2, [.assign 3 (.addrOf 1 false), .assign 4 (.binOp .sub (.local 1) (.constant (.int 1))),
        .assign 5 (.call "f" [.local 3, .local 4])], .ret (some (.local 5))⟩]
  locals := (List.range 7).map fun i => ⟨i, none, .i64, false⟩
  attributes := {}

theorem wellFormedFn_swapMany : WellFormedFn ⟨[swapMany]⟩ swapMany where
  entry := by rintro b ⟨⟩; rfl
  params := by decide
  declared := by decide
  defined := definedBeforeUse_of_params (by decide)

theorem wellFormedFn_lastArgument : WellFormedFn ⟨[lastArgument]⟩ lastArgument where
  entry := by rintro b ⟨⟩; rfl
  params := by decide
  declared := by decide
  defined := definedBeforeUse_of_params (by decide)

theorem tail_calls_agree_swap :
    ∃ c c', start flatMachine ⟨[swapMany]⟩ "swap" [1, 2, 3] ⟨fun _ => 0, 0⟩ = some c ∧
      start flatMachine (optimizeTailCalls ⟨[swapMany]⟩) "swap" [1, 2, 3] ⟨fun _ => 0, 0⟩ =
        some c' ∧
      Machine.Terminates (step flatMachine ⟨[swapMany]⟩) c (.returned (some 2) fun _ => 0) ∧
      Machine.Terminates (step flatMachine (optimizeTailCalls ⟨[swapMany]⟩)) c'
        (.returned (some 2) fun _ => 0) := by
  have hM : ∀ f ∈ [swapMany], WellFormedFn ⟨[swapMany]⟩ f := by
    intro f hf
    rw [List.mem_singleton.mp hf]
    exact wellFormedFn_swapMany
  have haddr : ∀ f ∈ [swapMany], ∀ b ∈ f.blocks, ∀ inst ∈ b.instructions,
      inst.addressed = [] := by decide
  obtain ⟨c, hc⟩ : ∃ c, start flatMachine ⟨[swapMany]⟩ "swap" [1, 2, 3] ⟨fun _ => 0, 0⟩ =
      some c := ⟨_, rfl⟩
  obtain ⟨c', hc', hterm, -⟩ := tail_calls_agree flatMachine hM hc fun d hd =>
    tailSafe_of_no_addresses haddr hc hd
  have hreturns : Machine.Terminates (step flatMachine ⟨[swapMany]⟩) c
      (.returned (some 2) fun _ => 0) := by
    obtain rfl := Option.some.inj hc
    exact Machine.terminates_of_run 30 rfl
  exact ⟨c, c', hc, hc', hreturns, (hterm _).mp hreturns⟩

theorem address_survives_the_iteration :
    WellFormedFn ⟨[lastArgument]⟩ lastArgument ∧
    ∃ c c' w, start flatMachine ⟨[lastArgument]⟩ "f" [0, 1] ⟨fun _ => 0, 0⟩ = some c ∧
      start flatMachine (optimizeTailCalls ⟨[lastArgument]⟩) "f" [0, 1] ⟨fun _ => 0, 0⟩ = some c' ∧
      Machine.Terminates (step flatMachine ⟨[lastArgument]⟩) c (.returned (some 1) w) ∧
      ¬ ∃ w', Machine.Terminates (step flatMachine (optimizeTailCalls ⟨[lastArgument]⟩)) c'
        (.returned (some 1) w') := by
  obtain ⟨c', hc'⟩ : ∃ c', start flatMachine (optimizeTailCalls ⟨[lastArgument]⟩) "f" [0, 1]
      ⟨fun _ => 0, 0⟩ = some c' := ⟨_, rfl⟩
  have hzero : ∃ w, Machine.Terminates (step flatMachine (optimizeTailCalls ⟨[lastArgument]⟩)) c'
      (.returned (some 0) w) := by
    obtain rfl := Option.some.inj hc'
    exact ⟨_, Machine.terminates_of_run 20 rfl⟩
  refine ⟨wellFormedFn_lastArgument, _, c', _, rfl, hc', Machine.terminates_of_run 20 rfl, ?_⟩
  rintro ⟨w', hw'⟩
  obtain ⟨w, hw⟩ := hzero
  have heq := hw.unique hw'
  simp at heq

end Kryos

import Mathlib
import Kryos.Mir.Semantics

/-!
# Dead-assignment removal

`remove_dead_assignments` of `kryos-mir/src/optimize/dce.rs`: an `Assign` whose destination is read
nowhere in the function is dropped unless `has_side_effects` flags its r-value.

`collect_used_locals` sees every read, so a removed value cannot be observed. `has_side_effects`
does not see every effect: it misses the panics of division and indexing, and calls under a
`Comptime`. The runs agree as long as no removed assignment that is executed has such an effect.

Heap allocation is not an effect here: an r-value that allocates gets its identity from the
destination and the number of times it was assigned in the activation (a `Stamp`), so that removing
one allocation does not move the others.

## Main results

* `collectLocalsInRvalue_eq` — every operand of an r-value is collected
* `execStamped_kept`, `execStamped_removed` — one instruction
* `dead_assignments_removed_agrees` — whole runs
-/

namespace Kryos

/-! ## The pass -/

def collectLocalsInOperand (op : Operand) : List LocalId :=
  match op with
  | .local id => [id]
  | .constant _ => []

def collectLocalsInRvalue : RValue Operand → List LocalId
  | .use op => collectLocalsInOperand op
  | .binOp _ left right => collectLocalsInOperand left ++ collectLocalsInOperand right
  | .unOp _ operand => collectLocalsInOperand operand
  | .call _ args => args.flatMap collectLocalsInOperand
  | .callIndirect callee args =>
    collectLocalsInOperand callee ++ args.flatMap collectLocalsInOperand
  | .array elems | .tuple elems => elems.flatMap collectLocalsInOperand
  | .struct _ fields => fields.flatMap fun p => collectLocalsInOperand p.2
  | .field object _ => collectLocalsInOperand object
  | .index object index => collectLocalsInOperand object ++ collectLocalsInOperand index
  | .arcAlloc inner => collectLocalsInOperand inner
  | .cast operand _ => collectLocalsInOperand operand
  | .enumVariant _ _ fields => fields.flatMap collectLocalsInOperand
  | .enumTag operand => collectLocalsInOperand operand
  | .enumPayload operand _ _ _ => collectLocalsInOperand operand
  | .closure _ captures => captures.flatMap collectLocalsInOperand
  | .map pairs => pairs.flatMap fun p => collectLocalsInOperand p.1 ++ collectLocalsInOperand p.2
  | .stringConcat parts => parts.flatMap collectLocalsInOperand
  | .range start stop _ =>
    start.toList.flatMap collectLocalsInOperand ++ stop.toList.flatMap collectLocalsInOperand
  | .addrOf id _ => [id]
  | .deref operand => collectLocalsInOperand operand
  | .comptime inner => collectLocalsInRvalue inner
  | .makeTraitObject value _ _ _ => collectLocalsInOperand value
  | .vtableCall object _ args _ =>
    collectLocalsInOperand object ++ args.flatMap collectLocalsInOperand
  | .constInt _ | .constFloat _ | .constBool _ | .constString _ | .constNone => []

def collectLocalsInInstruction : Instruction → List LocalId
  | .assign _ value => collectLocalsInRvalue value
  | .arcRetain ptr | .arcRelease ptr => [ptr]
  | .drop id => [id]
  | .dropIfNe old new _ _ _ => old :: collectLocalsInOperand new
  | .spawn _ args => args.flatMap collectLocalsInOperand
  | .send channel value => [channel, value]
  | .receive _ channel => [channel]
  | .actorSpawn _ _ state => collectLocalsInOperand state
  | .actorSend actor _ args => actor :: args.flatMap collectLocalsInOperand
  | .actorStateLoad _ statePtr _ => [statePtr]
  | .actorStateStore statePtr _ value => statePtr :: collectLocalsInOperand value
  | .storeField object _ value => collectLocalsInOperand object ++ collectLocalsInOperand value
  | .storeDeref ptr value => collectLocalsInOperand ptr ++ collectLocalsInOperand value
  | .nop | .debugLine _ => []

def collectLocalsInTerminator : Terminator → List LocalId
  | .ret (some op) => collectLocalsInOperand op
  | .branch cond _ _ => collectLocalsInOperand cond
  | .switch value _ _ => collectLocalsInOperand value
  | .ret none | .goto _ | .unreachable => []

/-- All locals that appear as operands anywhere in the function. -/
def collectUsedLocals (f : MirFunction) : List LocalId :=
  f.blocks.flatMap fun b =>
    b.instructions.flatMap collectLocalsInInstruction ++ collectLocalsInTerminator b.terminator

/-- R-values that are not removed even if their result is unused. -/
def hasSideEffects {α : Type} : RValue α → Bool
  | .call _ _ | .callIndirect _ _ | .vtableCall _ _ _ _ | .arcAlloc _ => true
  | _ => false

/-- An assignment the pass drops. -/
def isDeadAssignment (used : List LocalId) : Instruction → Bool
  | .assign dest value => !used.contains dest && !hasSideEffects value
  | _ => false

def removeDeadAssignments (f : MirFunction) : MirFunction :=
  { f with blocks := f.blocks.map fun b =>
      { b with instructions := b.instructions.filter fun inst =>
          !isDeadAssignment (collectUsedLocals f) inst } }

/-! ## Every read is collected -/

theorem collectLocalsInOperand_eq (op : Operand) : collectLocalsInOperand op = op.locals := by
  cases op <;> rfl

/-- What is collected from an r-value: the locals of its operands, and those whose address it
takes. -/
theorem collectLocalsInRvalue_eq (rv : RValue Operand) :
    collectLocalsInRvalue rv = rv.operands.flatMap Operand.locals ++ rv.addressed := by
  have hop : collectLocalsInOperand = Operand.locals := funext collectLocalsInOperand_eq
  induction rv with
  | comptime inner ih => exact ih
  | map pairs => simp [collectLocalsInRvalue, RValue.operands, RValue.addressed, hop, List.flatMap_assoc]
  | _ => simp [collectLocalsInRvalue, RValue.operands, RValue.addressed, hop, List.flatMap_map]

theorem collectLocalsInInstruction_eq (inst : Instruction) :
    collectLocalsInInstruction inst = inst.uses := by
  have hop : collectLocalsInOperand = Operand.locals := funext collectLocalsInOperand_eq
  cases inst with
  | assign dest value => exact collectLocalsInRvalue_eq value
  | _ => simp [collectLocalsInInstruction, Instruction.uses, Instruction.reads,
      Instruction.addressed, Operand.locals, hop]

theorem collectLocalsInTerminator_eq (term : Terminator) :
    collectLocalsInTerminator term = term.reads.flatMap Operand.locals := by
  rcases term with (_ | op) | _ | _ | _ | _ <;>
    simp [collectLocalsInTerminator, Terminator.reads, collectLocalsInOperand_eq]

/-! ## Runs -/

/-- R-values whose evaluation acts on the world: calls and reference-counted allocation, also at
compile time. -/
def RValue.effectful {α : Type} : RValue α → Bool
  | .call _ _ | .callIndirect _ _ | .vtableCall _ _ _ _ | .arcAlloc _ => true
  | .comptime inner => inner.effectful
  | _ => false

/-- The destination of an assignment, and how often it was assigned before in the activation. -/
abbrev Stamp := LocalId × ℕ

/-- The runtime's check of an r-value without effect: division and remainder by zero and
`INT64_MIN / -1`, and indexing out of bounds. -/
def runtimeCheck {V : Type} (isInt : V → Bool) (asInt : V → I64) (inBounds : V → V → Bool) :
    RValue V → Option Panic
  | .binOp op l r =>
    if (op = .div ∨ op = .mod) ∧ isInt l = true ∧ isInt r = true then
      match Native.kryosCheckSdivI64 (asInt l) (asInt r) 64 with
      | .error p => some p
      | .ok _ => none
    else none
  | .index object index =>
    if inBounds object index then none else some (.kryosPanic "index out of bounds")
  | .comptime inner => runtimeCheck isInt asInt inBounds inner
  | _ => none

/-- An interpretation in which r-values without effect only read the world, and panic exactly when
the runtime's check fails. -/
structure StampedInterp (V W A : Type) extends Interp V W A where
  value : Stamp → RValue V → List A → W → Except Panic V
  isInt : V → Bool
  inBounds : W → V → V → Bool
  value_error_iff : ∀ st rv addrs w p, value st rv addrs w = .error p ↔
    runtimeCheck isInt asInt (inBounds w) rv = some p

/-- A state with the number of assignments each local has had. -/
structure StampedState (V W : Type) where
  state : MState V W
  count : LocalId → ℕ

section Runs

variable {V W A : Type} (I : StampedInterp V W A) (L : Layout A)

/-- The r-value with its operands read. -/
def readRValue (s : MState V W) (rv : RValue Operand) : RValue V :=
  (rv.mapOperands (readOperand I.toInterp L s)).mapAddressed fun _ => 0

def evalStamped (s : MState V W) (st : Stamp) (rv : RValue Operand) :
    Except (Panic × W) (V × W) :=
  if rv.effectful then evalRValue I.toInterp L s rv
  else match I.value st (readRValue I L s rv) (rv.addressed.map L.place) s.world with
    | .ok v => .ok (v, s.world)
    | .error p => .error (p, s.world)

def execStamped (s : StampedState V W) (inst : Instruction) :
    Except (Panic × W) (StampedState V W) :=
  match inst with
  | .assign dest rv => (evalStamped I L s.state (dest, s.count dest) rv).map fun r =>
      ⟨assignResult I.toInterp L s.state (some dest) r,
        Function.update s.count dest (s.count dest + 1)⟩
  | inst => (execInst I.toInterp L s.state inst).map fun t => ⟨t, s.count⟩

def execAllStamped : List Instruction → StampedState V W →
    Except (Panic × W) (StampedState V W)
  | [], s => .ok s
  | inst :: insts, s => execStamped I L s inst >>= execAllStamped insts

/-- At most `k` blocks of a run that is about to enter block `id`. -/
def runStamped (f : MirFunction) : ℕ → BlockId → StampedState V W → FnOutcome V W
  | 0, id, s => .running id s.state
  | k + 1, id, s =>
    match f.findBlock id with
    | none => .running id s.state
    | some b =>
      match execAllStamped I L b.instructions s with
      | .error (p, w) => .panicked p w
      | .ok s' =>
        match nextBlock I.toInterp L s'.state b.terminator with
        | some t => runStamped f k t s'
        | none => finish I.toInterp L s'.state b.terminator

/-! ## The condition -/

/-- Nothing is lost by not evaluating the r-value: it acts on nothing and passes its check. -/
def RemovalSafe (s : MState V W) (rv : RValue Operand) : Prop :=
  rv.effectful = false ∧
    runtimeCheck I.isInt I.asInt (I.inBounds s.world) (readRValue I L s rv) = none

/-- Every removed assignment of the block that is executed is safe to remove. -/
def SafeInsts (used : List LocalId) : List Instruction → StampedState V W → Prop
  | [], _ => True
  | inst :: insts, s =>
    (∀ dest rv, inst = .assign dest rv → isDeadAssignment used inst = true →
      RemovalSafe I L s.state rv) ∧
    ∀ s', execStamped I L s inst = .ok s' → SafeInsts used insts s'

/-- Every removed assignment that the first `k` blocks of a run execute is safe to remove. -/
def SafeRemovals (f : MirFunction) : ℕ → BlockId → StampedState V W → Prop
  | 0, _, _ => True
  | k + 1, id, s => ∀ b, f.findBlock id = some b →
      SafeInsts I L (collectUsedLocals f) b.instructions s ∧
      ∀ s' t, execAllStamped I L b.instructions s = .ok s' →
        nextBlock I.toInterp L s'.state b.terminator = some t → SafeRemovals f k t s'

end Runs

/-! ## Agreement on the used locals -/

/-- The same world, and the same values and counts of the used locals. -/
structure AgreeOn {V W : Type} (used : List LocalId) (s t : StampedState V W) : Prop where
  world : s.state.world = t.state.world
  regs : ∀ x ∈ used, s.state.regs x = t.state.regs x
  count : ∀ x ∈ used, s.count x = t.count x

section Agree

variable {V W A : Type} {I : StampedInterp V W A} {L : Layout A} {used : List LocalId}
variable {s t : StampedState V W}

theorem AgreeOn.readLocal (h : AgreeOn used s t) {x : LocalId} (hx : x ∈ used) :
    readLocal I.toInterp L s.state x = readLocal I.toInterp L t.state x := by
  simp only [Kryos.readLocal, h.world, h.regs x hx]

theorem AgreeOn.readOperand (h : AgreeOn used s t) {op : Operand}
    (hop : ∀ x ∈ op.locals, x ∈ used) :
    readOperand I.toInterp L s.state op = readOperand I.toInterp L t.state op := by
  cases op with
  | «local» x => exact h.readLocal (hop x (by simp [Operand.locals]))
  | constant c => rfl

theorem AgreeOn.mapOperands (h : AgreeOn used s t) {rv : RValue Operand}
    (hrv : ∀ x ∈ collectLocalsInRvalue rv, x ∈ used) :
    rv.mapOperands (Kryos.readOperand I.toInterp L s.state) =
      rv.mapOperands (Kryos.readOperand I.toInterp L t.state) :=
  RValue.mapOperands_congr rv fun _ hop =>
    h.readOperand fun x hx => hrv x (collectLocalsInRvalue_eq rv ▸
      List.mem_append_left _ (List.mem_flatMap_of_mem hop hx))

theorem AgreeOn.evalStamped (h : AgreeOn used s t) {rv : RValue Operand}
    (hrv : ∀ x ∈ collectLocalsInRvalue rv, x ∈ used) {st st' : Stamp}
    (hst : rv.effectful = false → st = st') :
    evalStamped I L s.state st rv = evalStamped I L t.state st' rv := by
  by_cases heff : rv.effectful = true
  · simp only [Kryos.evalStamped, heff, if_true, evalRValue, h.mapOperands hrv, h.world]
  · have hst' := hst (Bool.eq_false_iff.mpr heff)
    simp only [Kryos.evalStamped, heff, Bool.false_eq_true, if_false, readRValue,
      h.mapOperands hrv, h.world, hst']

/-- Actions read collected locals only. -/
theorem AgreeOn.action (h : AgreeOn used s t) {inst : Instruction}
    (hinst : ∀ x ∈ collectLocalsInInstruction inst, x ∈ used) :
    inst.action (Kryos.readOperand I.toInterp L s.state) =
      inst.action (Kryos.readOperand I.toInterp L t.state) :=
  inst.action_congr fun _ hop =>
    h.readOperand fun x hx => hinst x (collectLocalsInInstruction_eq inst ▸
      List.mem_append_left _ (List.mem_flatMap_of_mem hop hx))

/-- Storing one result keeps the agreement. -/
theorem AgreeOn.assignResult (h : AgreeOn used s t) (dest : Option LocalId) (r : V × W)
    {c c' : LocalId → ℕ} (hc : ∀ x ∈ used, c x = c' x) :
    AgreeOn used ⟨assignResult I.toInterp L s.state dest r, c⟩
      ⟨assignResult I.toInterp L t.state dest r, c'⟩ := by
  cases dest with
  | none => exact ⟨rfl, h.regs, hc⟩
  | some d =>
    simp only [Kryos.assignResult, writeLocal]
    split
    · exact ⟨rfl, h.regs, hc⟩
    · refine ⟨rfl, fun x hx => ?_, hc⟩
      by_cases hxd : x = d
      · subst hxd
        simp only [Function.update_self]
      · simp only [Function.update_of_ne hxd]
        exact h.regs x hx

theorem AgreeOn.nextBlock (h : AgreeOn used s t) {term : Terminator}
    (hterm : ∀ x ∈ collectLocalsInTerminator term, x ∈ used) :
    nextBlock I.toInterp L s.state term = nextBlock I.toInterp L t.state term :=
  nextBlock_congr _ _ fun _ hop =>
    h.readOperand fun x hx => hterm x (collectLocalsInTerminator_eq term ▸
      List.mem_flatMap_of_mem hop hx)

theorem AgreeOn.finish (h : AgreeOn used s t) {term : Terminator}
    (hterm : ∀ x ∈ collectLocalsInTerminator term, x ∈ used) :
    finish I.toInterp L s.state term = finish I.toInterp L t.state term := by
  cases term with
  | ret op =>
    cases op with
    | none => simp only [Kryos.finish, h.world, Option.map_none]
    | some op =>
      have hop : Kryos.readOperand I.toInterp L s.state op =
          Kryos.readOperand I.toInterp L t.state op :=
        h.readOperand fun x hx => hterm x (collectLocalsInTerminator_eq (.ret (some op)) ▸
          List.mem_flatMap_of_mem List.mem_cons_self hx)
      simp only [Kryos.finish, h.world, Option.map_some, hop]
  | goto | branch | switch | unreachable => simp only [Kryos.finish, h.world]

end Agree

/-! ## The simulation -/

section Simulation

variable {V W A : Type} {I : StampedInterp V W A} {L : Layout A} {used : List LocalId}
variable {s t : StampedState V W}

/-- Both steps panic alike, or both succeed with agreeing states. -/
def StepAgrees (used : List LocalId) :
    Except (Panic × W) (StampedState V W) → Except (Panic × W) (StampedState V W) → Prop
  | .error e, .error e' => e = e'
  | .ok s, .ok t => AgreeOn used s t
  | _, _ => False

theorem effectful_of_hasSideEffects {rv : RValue Operand} (h : hasSideEffects rv = true) :
    rv.effectful = true := by
  cases rv <;> first | rfl | cases h

/-- **A kept instruction** has the same effect in agreeing states. -/
theorem execStamped_kept (h : AgreeOn used s t) {inst : Instruction}
    (hinst : ∀ x ∈ collectLocalsInInstruction inst, x ∈ used)
    (hkept : isDeadAssignment used inst = false) :
    StepAgrees used (execStamped I L s inst) (execStamped I L t inst) := by
  have hother : ∀ inst, (∀ dest rv, inst ≠ .assign dest rv) →
      (∀ x ∈ collectLocalsInInstruction inst, x ∈ used) →
      StepAgrees used ((execInst I.toInterp L s.state inst).map fun u => ⟨u, s.count⟩)
        ((execInst I.toInterp L t.state inst).map fun u => ⟨u, t.count⟩) := by
    intro inst hne hmem
    have hact := h.action (I := I) (L := L) hmem
    have heq : ∀ u : MState V W, execInst I.toInterp L u inst =
        (inst.action (readOperand I.toInterp L u)).elim (.ok u)
          fun act => (I.action act u.world).map (assignResult I.toInterp L u inst.dest) := by
      intro u
      cases inst <;> first | rfl | exact absurd rfl (hne _ _)
    rw [heq, heq, hact, h.world]
    cases inst.action (readOperand I.toInterp L t.state) with
    | none => exact h
    | some act =>
      dsimp only [Option.elim]
      cases I.action act t.state.world with
      | error e => exact rfl
      | ok r => exact h.assignResult inst.dest r h.count
  cases inst with
  | assign dest rv =>
    have hdest : rv.effectful = false → dest ∈ used := by
      intro heff
      by_contra hd
      have hns : hasSideEffects rv = false := by
        by_contra hs
        rw [effectful_of_hasSideEffects (Bool.not_eq_false _ ▸ hs)] at heff
        cases heff
      simp [isDeadAssignment, hd, hns] at hkept
    have heval : evalStamped I L s.state (dest, s.count dest) rv =
        evalStamped I L t.state (dest, t.count dest) rv :=
      h.evalStamped hinst fun heff => by rw [h.count dest (hdest heff)]
    simp only [execStamped, heval]
    cases evalStamped I L t.state (dest, t.count dest) rv with
    | error e => exact rfl
    | ok r =>
      refine h.assignResult (some dest) r fun x hx => ?_
      by_cases hxd : x = dest
      · subst hxd
        simp only [Function.update_self, h.count x hx]
      · simp only [Function.update_of_ne hxd, h.count x hx]
  | _ => exact hother _ (fun _ _ => by simp) hinst

/-- **A removed assignment** that is safe to remove succeeds and changes no used local. -/
theorem execStamped_removed (h : AgreeOn used s t) {inst : Instruction}
    (hdead : isDeadAssignment used inst = true)
    (hsafe : ∀ dest rv, inst = .assign dest rv → RemovalSafe I L s.state rv)
    (hres : ∀ x, L.resident x = true → x ∈ used) :
    ∃ s', execStamped I L s inst = .ok s' ∧ AgreeOn used s' t := by
  cases inst with
  | assign dest rv =>
    obtain ⟨heff, hpanic⟩ := hsafe dest rv rfl
    have hdest : dest ∉ used := by
      intro hd
      simp [isDeadAssignment, hd] at hdead
    have hreg : L.resident dest = false := by
      by_contra hr
      exact hdest (hres dest (Bool.not_eq_false _ ▸ hr))
    obtain ⟨v, hv⟩ : ∃ v, I.value (dest, s.count dest) (readRValue I L s.state rv)
        (rv.addressed.map L.place) s.state.world = .ok v := by
      cases hval : I.value (dest, s.count dest) (readRValue I L s.state rv)
          (rv.addressed.map L.place) s.state.world with
      | ok v => exact ⟨v, rfl⟩
      | error p =>
        rw [(I.value_error_iff _ _ _ _ _).mp hval] at hpanic
        cases hpanic
    refine ⟨_, by rw [execStamped, evalStamped, heff, if_neg (by decide), hv]; rfl, ?_⟩
    have hne : ∀ x ∈ used, x ≠ dest := fun x hx hxd => hdest (hxd ▸ hx)
    simp only [assignResult, writeLocal, hreg, Bool.false_eq_true, if_false]
    exact ⟨h.world, fun x hx => (Function.update_of_ne (hne x hx) _ _).trans (h.regs x hx),
      fun x hx => (Function.update_of_ne (hne x hx) _ _).trans (h.count x hx)⟩
  | _ => cases hdead

/-- A block body and what is left of it. -/
theorem execAllStamped_filter (hres : ∀ x, L.resident x = true → x ∈ used)
    {insts : List Instruction}
    (hinsts : ∀ inst ∈ insts, ∀ x ∈ collectLocalsInInstruction inst, x ∈ used)
    (h : AgreeOn used s t) (hsafe : SafeInsts I L used insts s) :
    StepAgrees used (execAllStamped I L insts s)
      (execAllStamped I L (insts.filter fun inst => !isDeadAssignment used inst) t) := by
  induction insts generalizing s t with
  | nil => exact h
  | cons inst insts ih =>
    obtain ⟨hone, hrest⟩ := hsafe
    have hinsts' := fun i hi => hinsts i (List.mem_cons_of_mem inst hi)
    by_cases hdead : isDeadAssignment used inst = true
    · obtain ⟨s', hs', hagree⟩ := execStamped_removed h hdead
        (fun dest rv hi => hone dest rv hi hdead) hres
      rw [List.filter_cons_of_neg (by simp [hdead]), execAllStamped, hs']
      exact ih hinsts' hagree (hrest s' hs')
    · have hkept := Bool.eq_false_iff.mpr hdead
      have hstep := execStamped_kept (I := I) (L := L) h (hinsts inst List.mem_cons_self) hkept
      rw [List.filter_cons_of_pos (by simp [hkept]), execAllStamped, execAllStamped]
      cases hs : execStamped I L s inst with
      | error e =>
        rw [hs] at hstep
        cases ht : execStamped I L t inst with
        | error e' =>
          rw [ht] at hstep
          exact hstep
        | ok t' =>
          rw [ht] at hstep
          exact hstep.elim
      | ok s' =>
        rw [hs] at hstep
        cases ht : execStamped I L t inst with
        | error e' =>
          rw [ht] at hstep
          exact hstep.elim
        | ok t' =>
          rw [ht] at hstep
          exact ih hinsts' hstep (hrest s' hs)

/-- The runs returned, panicked or trapped alike in one world, or are about to enter one block with
agreeing states. -/
def OutcomeAgrees (used : List LocalId) : FnOutcome V W → FnOutcome V W → Prop
  | .running b s, .running b' t => b = b' ∧ s.world = t.world ∧ ∀ x ∈ used, s.regs x = t.regs x
  | .returned v w, .returned v' w' => v = v' ∧ w = w'
  | .unreachable w, .unreachable w' => w = w'
  | .panicked p w, .panicked p' w' => p = p' ∧ w = w'
  | _, _ => False

theorem OutcomeAgrees.finish (used : List LocalId) (s : MState V W) (term : Terminator) :
    OutcomeAgrees used (finish I.toInterp L s term) (finish I.toInterp L s term) := by
  cases term <;> first | exact rfl | exact ⟨rfl, rfl⟩

theorem findBlock_removeDeadAssignments (f : MirFunction) (id : BlockId) :
    (removeDeadAssignments f).findBlock id = (f.findBlock id).map fun b =>
      { b with instructions := b.instructions.filter fun inst =>
          !isDeadAssignment (collectUsedLocals f) inst } := by
  simp only [removeDeadAssignments, MirFunction.findBlock, List.find?_map]
  rfl

/-- The locals whose address is taken in a function. -/
def addressTaken (f : MirFunction) : List LocalId :=
  f.blocks.flatMap fun b => b.instructions.flatMap fun inst =>
    match inst with
    | .assign _ rv => rv.addressed
    | _ => []

theorem addressTaken_subset_used (f : MirFunction) :
    ∀ x ∈ addressTaken f, x ∈ collectUsedLocals f := by
  intro x hx
  obtain ⟨b, hb, hx⟩ := List.mem_flatMap.mp hx
  obtain ⟨inst, hinst, hx⟩ := List.mem_flatMap.mp hx
  refine List.mem_flatMap.mpr ⟨b, hb, List.mem_append_left _ ?_⟩
  refine List.mem_flatMap.mpr ⟨inst, hinst, ?_⟩
  cases inst with
  | assign dest rv =>
    exact collectLocalsInInstruction_eq (.assign dest rv) ▸ List.mem_append_right _ hx
  | _ => cases hx

end Simulation

/-- **Dead-assignment removal.** Only address-taken locals are resident. After any number of blocks of a run in which every executed
removed assignment acts on nothing and passes its check, the function without its dead assignments
has returned the same value, panicked or trapped alike, in the same world, or is about to enter the
same block with the same used locals. -/
theorem dead_assignments_removed_agrees {V W A : Type} {I : StampedInterp V W A} {L : Layout A}
    (f : MirFunction) (hres : ∀ x, L.resident x = true → x ∈ addressTaken f) (k : ℕ) (id : BlockId)
    (s : StampedState V W) (hsafe : SafeRemovals I L f k id s) :
    OutcomeAgrees (collectUsedLocals f) (runStamped I L f k id s)
      (runStamped I L (removeDeadAssignments f) k id s) := by
  have key : ∀ t, AgreeOn (collectUsedLocals f) s t → OutcomeAgrees (collectUsedLocals f)
      (runStamped I L f k id s) (runStamped I L (removeDeadAssignments f) k id t) := by
    induction k generalizing id s with
    | zero => exact fun t h => ⟨rfl, h.world, h.regs⟩
    | succ k ih =>
      intro t h
      rw [runStamped, runStamped, findBlock_removeDeadAssignments]
      cases hb : f.findBlock id with
      | none => exact ⟨rfl, h.world, h.regs⟩
      | some b =>
        obtain ⟨hinsts, hrest⟩ := hsafe b hb
        have hmem : b ∈ f.blocks := List.mem_of_find?_eq_some hb
        have hused : ∀ inst ∈ b.instructions, ∀ x ∈ collectLocalsInInstruction inst,
            x ∈ collectUsedLocals f := fun inst hi x hx =>
          List.mem_flatMap.mpr ⟨b, hmem, List.mem_append_left _ (List.mem_flatMap.mpr ⟨inst, hi, hx⟩)⟩
        have hterm : ∀ x ∈ collectLocalsInTerminator b.terminator, x ∈ collectUsedLocals f :=
          fun x hx => List.mem_flatMap.mpr ⟨b, hmem, List.mem_append_right _ hx⟩
        have hblock := execAllStamped_filter
          (fun x hx => addressTaken_subset_used f x (hres x hx)) hused h hinsts
        simp only [Option.map_some]
        cases hs : execAllStamped I L b.instructions s with
        | error e =>
          rw [hs] at hblock
          cases ht : execAllStamped I L (b.instructions.filter fun inst =>
              !isDeadAssignment (collectUsedLocals f) inst) t with
          | error e' =>
            rw [ht] at hblock
            obtain rfl : e = e' := hblock
            exact ⟨rfl, rfl⟩
          | ok t' =>
            rw [ht] at hblock
            exact hblock.elim
        | ok s' =>
          rw [hs] at hblock
          cases ht : execAllStamped I L (b.instructions.filter fun inst =>
              !isDeadAssignment (collectUsedLocals f) inst) t with
          | error e' =>
            rw [ht] at hblock
            exact hblock.elim
          | ok t' =>
            rw [ht] at hblock
            have hagree : AgreeOn (collectUsedLocals f) s' t' := hblock
            dsimp only
            rw [← hagree.nextBlock hterm]
            cases hn : nextBlock I.toInterp L s'.state b.terminator with
            | some target => exact ih target s' (hrest s' target hs hn) t' hagree
            | none =>
              dsimp only
              rw [← hagree.finish hterm]
              exact OutcomeAgrees.finish _ _ _
  exact key s ⟨rfl, fun _ _ => rfl, fun _ _ => rfl⟩

/-! ### Two functions -/

/-- Integers in a flat memory, with addition and the runtime's checks. -/
def checkedInterp : StampedInterp I64 (ℕ → I64) ℕ where
  const := fun c => match c with
    | .int v => v
    | _ => 0
  truthy := fun v => v != 0
  asInt := id
  load := fun w a => w a
  store := fun w a v => Function.update w a v
  load_store_self := fun w a v => Function.update_self a v w
  load_store_of_ne := fun w _ _ v h => Function.update_of_ne h.symm v w
  rvalue := fun rv _ w => match rv with
    | .use v => .ok (v, w)
    | _ => .ok (0, w)
  rvalue_use := fun _ _ => rfl
  action := fun _ w => .ok (0, w)
  value := fun _ rv _ _ => match runtimeCheck (fun _ => true) id (fun _ _ => false) rv with
    | some p => .error p
    | none => .ok (match rv with
      | .use v => v
      | .binOp .add l r => l + r
      | _ => 0)
  isInt := fun _ => true
  inBounds := fun _ _ _ => false
  value_error_iff := by
    intro st rv addrs w p
    cases runtimeCheck (fun _ => true) id (fun _ _ => false) rv <;> simp

/-- No local is resident. -/
def registersOnly : Layout ℕ where
  resident := fun _ => false
  place := id
  place_injective := Function.injective_id

/-- `_1 = 1 op 0; return 7`. -/
def deadBinOp (op : MirBinOp) : MirFunction where
  name := "f"
  params := []
  retTy := .i64
  blocks := [⟨0, [.assign 1 (.binOp op (.constant (.int 1)) (.constant (.int 0)))],
    .ret (some (.constant (.int 7)))⟩]
  locals := [⟨0, none, .i64, false⟩, ⟨1, none, .i64, false⟩]
  attributes := {}

/-- The dead addition `1 + 0` is removed without a trace. -/
theorem dead_assignments_removed_agrees_add :
    OutcomeAgrees (collectUsedLocals (deadBinOp .add))
      (runStamped checkedInterp registersOnly (deadBinOp .add) 1 0
        ⟨⟨fun _ => 0, fun _ => 0⟩, fun _ => 0⟩)
      (runStamped checkedInterp registersOnly (removeDeadAssignments (deadBinOp .add)) 1 0
        ⟨⟨fun _ => 0, fun _ => 0⟩, fun _ => 0⟩) := by
  refine dead_assignments_removed_agrees _ (fun x hx => ?_) 1 0 _ ?_
  · cases hx
  · intro b hb
    cases hb
    refine ⟨⟨?_, fun _ _ => trivial⟩, fun _ _ _ _ => trivial⟩
    rintro dest rv hi -
    cases hi
    exact ⟨rfl, rfl⟩

/-- The dead division `1 / 0` panics in the original; without it the function returns `7`. -/
theorem dead_division_by_zero_is_lost :
    ¬OutcomeAgrees (collectUsedLocals (deadBinOp .div))
      (runStamped checkedInterp registersOnly (deadBinOp .div) 1 0
        ⟨⟨fun _ => 0, fun _ => 0⟩, fun _ => 0⟩)
      (runStamped checkedInterp registersOnly (removeDeadAssignments (deadBinOp .div)) 1 0
        ⟨⟨fun _ => 0, fun _ => 0⟩, fun _ => 0⟩) := by
  intro h
  exact h

end Kryos

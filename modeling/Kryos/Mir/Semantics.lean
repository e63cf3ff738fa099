import Kryos.Native.IntOps

/-!
# Meaning of MIR code

The optimiser never looks inside a value, so values, the world (heap, channels, output, the calls
made so far) and addresses are parameters. An `Interp` says what constants, r-values and effectful
instructions mean; the control flow and the handling of locals are the same for every
interpretation.

A local whose address is taken is *resident*: it lives in memory at a fixed place, where stores
through pointers and callees can reach it. All others are registers of the activation.

## Main definitions

* `Interp`, `Layout`, `MState` — an interpretation, the placement of resident locals, a state
* `execInst`, `execInsts`, `runFn` — one instruction, a block body, a function
-/

namespace Kryos

/-- An instruction other than an assignment, with the values of the operands it reads. -/
inductive Action (V : Type)
  | arcRetain (ptr : V)
  | arcRelease (ptr : V)
  | drop (value : V)
  | dropIfNe (old new : V) (ty : MirType) (retainedByStore viaMap : Bool)
  | storeField (object : V) (field : String) (value : V)
  | storeDeref (ptr value : V)
  | spawn (func : String) (args : List V)
  | send (channel value : V)
  | receive (channel : V)
  | actorSpawn (dispatchFn : String) (state : V)
  | actorSend (actor : V) (handlerTag : ℕ) (args : List V)
  | actorStateLoad (statePtr : V) (fieldOffset : ℕ)
  | actorStateStore (statePtr : V) (fieldOffset : ℕ) (value : V)

/-- The local an instruction defines. -/
def Instruction.dest : Instruction → Option LocalId
  | .assign dest _ | .receive dest _ | .actorSpawn dest _ _ | .actorStateLoad dest _ _ => some dest
  | _ => none

/-- The action of an instruction other than `Assign`, `Nop` and `DebugLine`. -/
def Instruction.action {V : Type} (read : Operand → V) : Instruction → Option (Action V)
  | .assign _ _ | .nop | .debugLine _ => none
  | .arcRetain ptr => some (.arcRetain (read (.local ptr)))
  | .arcRelease ptr => some (.arcRelease (read (.local ptr)))
  | .drop id => some (.drop (read (.local id)))
  | .dropIfNe old new ty retained viaMap =>
    some (.dropIfNe (read (.local old)) (read new) ty retained viaMap)
  | .storeField object field value => some (.storeField (read object) field (read value))
  | .storeDeref ptr value => some (.storeDeref (read ptr) (read value))
  | .spawn func args => some (.spawn func (args.map read))
  | .send channel value => some (.send (read (.local channel)) (read (.local value)))
  | .receive _ channel => some (.receive (read (.local channel)))
  | .actorSpawn _ dispatchFn state => some (.actorSpawn dispatchFn (read state))
  | .actorSend actor tag args => some (.actorSend (read (.local actor)) tag (args.map read))
  | .actorStateLoad _ statePtr offset => some (.actorStateLoad (read (.local statePtr)) offset)
  | .actorStateStore statePtr offset value =>
    some (.actorStateStore (read (.local statePtr)) offset (read value))

/-- The operands an instruction reads. -/
def Instruction.reads : Instruction → List Operand
  | .assign _ rv => rv.operands
  | .nop | .debugLine _ => []
  | .arcRetain ptr | .arcRelease ptr => [.local ptr]
  | .drop id => [.local id]
  | .dropIfNe old new _ _ _ => [.local old, new]
  | .storeField object _ value => [object, value]
  | .storeDeref ptr value => [ptr, value]
  | .spawn _ args => args
  | .send channel value => [.local channel, .local value]
  | .receive _ channel => [.local channel]
  | .actorSpawn _ _ state => [state]
  | .actorSend actor _ args => .local actor :: args
  | .actorStateLoad _ statePtr _ => [.local statePtr]
  | .actorStateStore statePtr _ value => [.local statePtr, value]

/-- The locals whose address an instruction takes. -/
def Instruction.addressed : Instruction → List LocalId
  | .assign _ rv => rv.addressed
  | _ => []

/-- The locals an instruction needs: those it reads and those it takes the address of. -/
def Instruction.uses (inst : Instruction) : List LocalId :=
  inst.reads.flatMap Operand.locals ++ inst.addressed

/-- The operands a terminator reads. -/
def Terminator.reads : Terminator → List Operand
  | .ret op => op.toList
  | .branch cond _ _ => [cond]
  | .switch value _ _ => [value]
  | .goto _ | .unreachable => []

/-- An action only depends on the operands read. -/
theorem Instruction.action_congr {V : Type} {f g : Operand → V} (inst : Instruction)
    (h : ∀ op ∈ inst.reads, f op = g op) : inst.action f = inst.action g := by
  have hargs : ∀ args : List Operand, (∀ op ∈ args, f op = g op) → args.map f = args.map g :=
    fun args hargs => List.map_congr_left hargs
  rcases inst with _ | _ | _ | _ | _ | _ | _ | _ | _ | ⟨func, args⟩ | _ | _ | _ |
    ⟨actor, tag, args⟩ | _ | _
  case spawn => simp only [action, hargs args h]
  case actorSend =>
    simp only [action, hargs args fun op hop => h op (List.mem_cons_of_mem _ hop),
      h (.local actor) List.mem_cons_self]
  all_goals simp_all [action, reads]

/-- An interpretation over values `V`, worlds `W` and addresses `A`. A panic keeps the world it
happened in. `Use` copies a value; every other r-value, calls included, may read and change the
world. The addresses an r-value takes are handed to it beside its operands. -/
structure Interp (V W A : Type) where
  const : Constant → V
  truthy : V → Bool
  asInt : V → I64
  load : W → A → V
  store : W → A → V → W
  load_store_self : ∀ w a v, load (store w a v) a = v
  load_store_of_ne : ∀ w {a b : A} v, a ≠ b → load (store w a v) b = load w b
  rvalue : RValue V → List A → W → Except (Panic × W) (V × W)
  rvalue_use : ∀ v w, rvalue (.use v) [] w = .ok (v, w)
  action : Action V → W → Except (Panic × W) (V × W)

/-- Which locals of an activation are resident, and where. -/
structure Places (A : Type) where
  resident : LocalId → Bool
  place : LocalId → A

/-- Places that never overlap. -/
structure Layout (A : Type) extends Places A where
  place_injective : Function.Injective place

instance {A : Type} : CoeOut (Layout A) (Places A) := ⟨Layout.toPlaces⟩

/-- The registers of an activation, and the world. -/
@[ext] structure MState (V W : Type) where
  regs : LocalId → V
  world : W

section Locals

variable {V W A : Type} (I : Interp V W A) (L : Places A)

def readLocal (s : MState V W) (x : LocalId) : V :=
  if L.resident x then I.load s.world (L.place x) else s.regs x

def readOperand (s : MState V W) : Operand → V
  | .local x => readLocal I L s x
  | .constant c => I.const c

def writeLocal (s : MState V W) (x : LocalId) (v : V) : MState V W :=
  if L.resident x then { s with world := I.store s.world (L.place x) v }
  else { s with regs := Function.update s.regs x v }

@[simp] theorem readLocal_writeLocal_self (s : MState V W) (x : LocalId) (v : V) :
    readLocal I L (writeLocal I L s x v) x = v := by
  by_cases h : L.resident x
  · simp [readLocal, writeLocal, h, I.load_store_self]
  · simp [readLocal, writeLocal, h]

theorem readLocal_writeLocal_of_ne (L : Layout A) (s : MState V W) {x y : LocalId} (hxy : y ≠ x) (v : V) :
    readLocal I L (writeLocal I L s x v) y = readLocal I L s y := by
  have hplace : L.place x ≠ L.place y := fun h => hxy (L.place_injective h).symm
  by_cases hx : L.resident x <;> by_cases hy : L.resident y <;>
    simp [readLocal, writeLocal, hx, hy, hxy, I.load_store_of_ne, hplace]

/-- Writing loses nothing of the value. -/
theorem writeLocal_injective (s : MState V W) (x : LocalId) :
    Function.Injective (writeLocal I L s x) := by
  intro v v' h
  rw [← readLocal_writeLocal_self I L s x v, h, readLocal_writeLocal_self]

/-! ## Instructions -/

/-- Evaluate an r-value: its operands are read, the locals it takes the address of are replaced by
their places. -/
def evalRValue (s : MState V W) (rv : RValue Operand) : Except (Panic × W) (V × W) :=
  I.rvalue ((rv.mapOperands (readOperand I L s)).mapAddressed fun _ => 0)
    (rv.addressed.map L.place) s.world

/-- Store the result of a step, in the world it left. -/
def assignResult (s : MState V W) (dest : Option LocalId) (r : V × W) : MState V W :=
  match dest with
  | some x => writeLocal I L { s with world := r.2 } x r.1
  | none => { s with world := r.2 }

def execInst (s : MState V W) (inst : Instruction) : Except (Panic × W) (MState V W) :=
  match inst with
  | .assign dest rv => (evalRValue I L s rv).map (assignResult I L s (some dest))
  | inst =>
    match inst.action (readOperand I L s) with
    | some act => (I.action act s.world).map (assignResult I L s inst.dest)
    | none => .ok s

/-- What an instruction computes from the operands it reads and the places it takes, before the
result is stored. -/
def instResult (read : Operand → V) (place : LocalId → A) (w : W) :
    Instruction → Except (Panic × W) (V × W)
  | .assign _ rv =>
    I.rvalue ((rv.mapOperands read).mapAddressed fun _ => 0) (rv.addressed.map place) w
  | inst =>
    match inst.action read with
    | some act => I.action act w
    | none => .ok (I.const .none, w)

theorem execInst_eq (s : MState V W) (inst : Instruction) :
    execInst I L s inst =
      (instResult I (readOperand I L s) L.place s.world inst).map
        (assignResult I L s inst.dest) := by
  rcases inst with _ | _ <;> rfl

theorem instResult_congr {read read' : Operand → V} {place place' : LocalId → A} {w : W}
    {inst : Instruction} (hread : ∀ op ∈ inst.reads, read op = read' op)
    (hplace : ∀ x ∈ inst.addressed, place x = place' x) :
    instResult I read place w inst = instResult I read' place' w inst := by
  have haction := inst.action_congr hread
  rcases inst with ⟨dest, rv⟩ | _
  case assign =>
    have hplaces : rv.addressed.map place = rv.addressed.map place' := List.map_congr_left hplace
    simp only [instResult, RValue.mapOperands_congr rv hread, hplaces]
  all_goals simp only [instResult, haction]

/-- Run a list of instructions. -/
def execInsts : List Instruction → MState V W → Except (Panic × W) (MState V W)
  | [], s => .ok s
  | inst :: insts, s => execInst I L s inst >>= execInsts insts

@[simp] theorem execInsts_nil (s : MState V W) : execInsts I L [] s = .ok s := rfl

theorem execInsts_cons (inst : Instruction) (insts : List Instruction) (s : MState V W) :
    execInsts I L (inst :: insts) s = execInst I L s inst >>= execInsts I L insts := rfl

theorem execInst_assign_use (s : MState V W) (dest : LocalId) (op : Operand) :
    execInst I L s (.assign dest (.use op)) = .ok (writeLocal I L s dest (readOperand I L s op)) := by
  simp only [execInst, evalRValue, RValue.mapOperands, RValue.mapAddressed, RValue.addressed,
    List.map_nil, I.rvalue_use]
  rfl

/-- A register that an instruction does not define keeps its value. -/
theorem regs_execInst {s s' : MState V W} {inst : Instruction} (h : execInst I L s inst = .ok s')
    {x : LocalId} (hx : inst.dest ≠ some x) : s'.regs x = s.regs x := by
  have hassign : ∀ (dest : Option LocalId) (r : V × W), dest ≠ some x →
      (assignResult I L s dest r).regs x = s.regs x := by
    intro dest r hd
    cases dest with
    | none => rfl
    | some y =>
      have hxy : x ≠ y := fun h => hd (h ▸ rfl)
      simp only [assignResult, writeLocal]
      split
      · rfl
      · exact Function.update_of_ne hxy _ _
  have hmap : ∀ (r : Except (Panic × W) (V × W)) (dest : Option LocalId), dest ≠ some x →
      r.map (assignResult I L s dest) = .ok s' → s'.regs x = s.regs x := by
    intro r dest hd hr
    cases r with
    | error e => cases hr
    | ok r =>
      cases hr
      exact hassign dest r hd
  cases inst <;> first
    | exact hmap _ _ hx h
    | (cases h; rfl)

end Locals

/-! ## Functions -/

/-- How far a run of a function got. -/
inductive FnOutcome (V W : Type)
  | running (at_ : BlockId) (s : MState V W)
  | returned (value : Option V) (world : W)
  | unreachable (world : W)
  | panicked (panic : Panic) (world : W)

section Functions

variable {V W A : Type} (I : Interp V W A) (L : Places A)

/-- The block a terminator continues with. -/
def nextBlock (s : MState V W) : Terminator → Option BlockId
  | .ret _ | .unreachable => none
  | .goto t => some t
  | .branch cond t e => some (if I.truthy (readOperand I L s cond) then t else e)
  | .switch v targets default =>
    some (((targets.find? fun ct => ct.1 == I.asInt (readOperand I L s v)).map Prod.snd).getD default)

theorem nextBlock_congr {L' : Places A} {s s' : MState V W} {term : Terminator}
    (h : ∀ op ∈ term.reads, readOperand I L s op = readOperand I L' s' op) :
    nextBlock I L s term = nextBlock I L' s' term := by
  rcases term with _ | _ | ⟨cond, _, _⟩ | ⟨value, _, _⟩ | _
  case branch => simp only [nextBlock, h cond (List.mem_singleton.mpr rfl)]
  case switch => simp only [nextBlock, h value (List.mem_singleton.mpr rfl)]
  all_goals rfl

/-- The end of a run at a terminator without successors. -/
def finish (s : MState V W) : Terminator → FnOutcome V W
  | .ret op => .returned (op.map (readOperand I L s)) s.world
  | _ => .unreachable s.world

/-- At most `k` blocks of a run that is about to enter block `id`. -/
def runFn (f : MirFunction) : ℕ → BlockId → MState V W → FnOutcome V W
  | 0, id, s => .running id s
  | k + 1, id, s =>
    match f.findBlock id with
    | none => .running id s
    | some b =>
      match execInsts I L b.instructions s with
      | .error (p, w) => .panicked p w
      | .ok s' =>
        match nextBlock I L s' b.terminator with
        | some t => runFn f k t s'
        | none => finish I L s' b.terminator

end Functions

end Kryos

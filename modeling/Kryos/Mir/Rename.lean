import Kryos.Mir.Semantics

/-!
# Renaming locals

Renaming every local of an instruction renames what it reads, where it takes addresses and what it
defines, and nothing else: it computes the same from the renamed operands.
-/

namespace Kryos

/-- Rename the local of an operand. -/
def Operand.rename (ρ : LocalId → LocalId) : Operand → Operand
  | .local id => .local (ρ id)
  | .constant c => .constant c

/-- Rename every local of an r-value. -/
def RValue.rename (ρ : LocalId → LocalId) (rv : RValue Operand) : RValue Operand :=
  (rv.mapOperands (Operand.rename ρ)).mapAddressed ρ

/-- Rename every local of an instruction. -/
def Instruction.rename (ρ : LocalId → LocalId) : Instruction → Instruction
  | .assign dest rv => .assign (ρ dest) (rv.rename ρ)
  | .arcRetain ptr => .arcRetain (ρ ptr)
  | .arcRelease ptr => .arcRelease (ρ ptr)
  | .drop id => .drop (ρ id)
  | .dropIfNe old new ty retained viaMap => .dropIfNe (ρ old) (new.rename ρ) ty retained viaMap
  | .storeField object field value => .storeField (object.rename ρ) field (value.rename ρ)
  | .storeDeref ptr value => .storeDeref (ptr.rename ρ) (value.rename ρ)
  | .nop => .nop
  | .debugLine line => .debugLine line
  | .spawn func args => .spawn func (args.map (Operand.rename ρ))
  | .send channel value => .send (ρ channel) (ρ value)
  | .receive dest channel => .receive (ρ dest) (ρ channel)
  | .actorSpawn dest dispatchFn state => .actorSpawn (ρ dest) dispatchFn (state.rename ρ)
  | .actorSend actor tag args => .actorSend (ρ actor) tag (args.map (Operand.rename ρ))
  | .actorStateLoad dest statePtr offset => .actorStateLoad (ρ dest) (ρ statePtr) offset
  | .actorStateStore statePtr offset value =>
    .actorStateStore (ρ statePtr) offset (value.rename ρ)

section Rename

variable (ρ : LocalId → LocalId)

@[simp] theorem Operand.rename_id : Operand.rename id = id := by
  funext op
  rcases op with _ | _ <;> rfl

@[simp] theorem RValue.rename_id (rv : RValue Operand) : rv.rename id = rv := by
  induction rv with
  | comptime inner ih =>
    show RValue.comptime (inner.rename id) = _
    rw [ih]
  | range start stop incl =>
    rcases start with _ | _ <;> rcases stop with _ | _ <;>
      simp [rename, mapOperands, mapAddressed]
  | _ => simp [rename, mapOperands, mapAddressed]

@[simp] theorem Instruction.rename_id (inst : Instruction) : inst.rename id = inst := by
  rcases inst with _ | _ <;> simp [rename]

@[simp] theorem Instruction.dest_rename (inst : Instruction) :
    (inst.rename ρ).dest = inst.dest.map ρ := by
  rcases inst with _ | _ <;> rfl

theorem RValue.addressed_rename (rv : RValue Operand) :
    (rv.rename ρ).addressed = rv.addressed.map ρ := by
  induction rv with
  | comptime inner ih => exact ih
  | _ => rfl

@[simp] theorem Instruction.addressed_rename (inst : Instruction) :
    (inst.rename ρ).addressed = inst.addressed.map ρ := by
  rcases inst with ⟨dest, rv⟩ | _
  case assign => exact rv.addressed_rename ρ
  all_goals rfl

/-- Reading the operands of a renamed r-value, its addressed locals left out of account. -/
theorem RValue.mapOperands_rename {V : Type} (read : Operand → V) (rv : RValue Operand) :
    ((rv.rename ρ).mapOperands read).mapAddressed (fun _ => 0) =
      (rv.mapOperands (read ∘ Operand.rename ρ)).mapAddressed fun _ => 0 := by
  induction rv with
  | comptime inner ih =>
    show RValue.comptime (((inner.rename ρ).mapOperands read).mapAddressed fun _ => 0) = _
    rw [ih]
    rfl
  | range start stop incl =>
    rcases start with _ | _ <;> rcases stop with _ | _ <;>
      simp [rename, mapOperands, mapAddressed]
  | _ => simp [rename, mapOperands, mapAddressed, Function.comp_def]

theorem Instruction.action_rename {V : Type} (read : Operand → V) (inst : Instruction) :
    (inst.rename ρ).action read = inst.action (read ∘ Operand.rename ρ) := by
  rcases inst with _ | _ <;> simp [rename, action, Operand.rename]

/-- A renamed instruction computes what the instruction computes from the renamed operands. -/
theorem instResult_rename {V W A : Type} (I : Interp V W A) (read : Operand → V)
    (place : LocalId → A) (w : W) (inst : Instruction) :
    instResult I read place w (inst.rename ρ) =
      instResult I (read ∘ Operand.rename ρ) (place ∘ ρ) w inst := by
  have haction := inst.action_rename ρ read
  rcases inst with ⟨dest, rv⟩ | _
  case assign =>
    simp only [Instruction.rename, instResult, RValue.mapOperands_rename, RValue.addressed_rename,
      List.map_map]
  all_goals
    simp only [Instruction.rename] at haction
    simp only [Instruction.rename, instResult, haction]

end Rename

end Kryos

import Mathlib.Data.Finset.Card
import Mathlib.Data.Finset.Range
import Kryos.Mir.Ir

/-!
# Control flow of a MIR function

The control-flow graph of a function with uninterpreted block bodies: a run executes bodies in the
order the terminators dictate. Bodies are a parameter, so a statement about `cfgRun` for every
`Bodies` is a statement about control flow alone.

Values are 64-bit slots; a floating-point value is carried as its bit pattern.
-/

namespace Kryos

/-- The slot of a constant operand. A string is the packed offset and length of its interned
bytes. -/
def Constant.slot (intern : String → I64) : Constant → I64
  | .int v => v
  | .float bits => bits.toBitVec
  | .bool b => if b then 1 else 0
  | .str s => intern s
  | .none => 0

/-- An interpretation of block bodies over `n` locals and a world `W` of everything else. `none`
is a body that stops the program. -/
structure Bodies (n : ℕ) (W : Type) where
  run : BlockId → (Fin n → I64) → W → Option ((Fin n → I64) × W)
  intern : String → I64

/-- The state of a run between two blocks, with the bodies executed so far. -/
structure CfgState (n : ℕ) (W : Type) where
  locals : Fin n → I64
  world : W
  trace : List BlockId

/-- The locals a terminator reads. -/
def Terminator.locals : Terminator → List LocalId
  | .ret (some op) => op.locals
  | .branch cond _ _ => cond.locals
  | .switch value _ _ => value.locals
  | _ => []

variable {n : ℕ} {W : Type}

/-- The value of an operand. -/
def Bodies.value (B : Bodies n W) (locals : Fin n → I64) : Operand → I64
  | .local id => if h : id < n then locals ⟨id, h⟩ else 0
  | .constant c => c.slot B.intern

/-- A `Switch` goes to the first target whose case equals the value. -/
def switchTarget (v : I64) (targets : List (I64 × BlockId)) (default : BlockId) : BlockId :=
  match targets with
  | [] => default
  | (case, target) :: rest => if v = case then target else switchTarget v rest default

/-- The block a terminator continues with. -/
def Terminator.next (value : Operand → I64) : Terminator → Option BlockId
  | .ret _ | .unreachable => none
  | .goto t => some t
  | .branch cond t e => some (if value cond ≠ 0 then t else e)
  | .switch v targets default => some (switchTarget (value v) targets default)

/-- How far a run got. -/
inductive CfgOutcome (n : ℕ) (W : Type)
  | running (at_ : BlockId) (s : CfgState n W)
  | returned (value : Option I64) (s : CfgState n W)
  | unreachable (s : CfgState n W)
  | stopped (s : CfgState n W)

/-- The value a `Return` hands to the caller: none in a void function. -/
def returnedValue (isVoid : Bool) (value : Operand → I64) (op : Option Operand) : Option I64 :=
  if isVoid then none else op.map value

def MirFunction.isVoid (f : MirFunction) : Bool := f.retTy matches .void

/-- The end of a run at a terminator without successors. -/
def Terminator.leave (isVoid : Bool) (value : Operand → I64) (s : CfgState n W) :
    Terminator → CfgOutcome n W
  | .ret op => .returned (returnedValue isVoid value op) s
  | _ => .unreachable s

/-- At most `k` blocks of a run that is about to enter block `id`. -/
def cfgRun (B : Bodies n W) (f : MirFunction) : ℕ → BlockId → CfgState n W → CfgOutcome n W
  | 0, id, s => .running id s
  | k + 1, id, s =>
    match f.findBlock id with
    | none => .running id s
    | some b =>
      match B.run id s.locals s.world with
      | none => .stopped { s with trace := s.trace ++ [id] }
      | some (locals, world) =>
        match b.terminator.next (B.value locals) with
        | some t => cfgRun B f k t ⟨locals, world, s.trace ++ [id]⟩
        | none => b.terminator.leave f.isVoid (B.value locals) ⟨locals, world, s.trace ++ [id]⟩

/-- Every terminator the first `k` blocks of a run execute meets `P`. -/
def AllTerminators (P : Terminator → (Operand → I64) → Prop) (B : Bodies n W) (f : MirFunction) :
    ℕ → BlockId → CfgState n W → Prop
  | 0, _, _ => True
  | k + 1, id, s =>
    ∀ b locals world, f.findBlock id = some b → B.run id s.locals s.world = some (locals, world) →
      P b.terminator (B.value locals) ∧
      ∀ t, b.terminator.next (B.value locals) = some t →
        AllTerminators P B f k t ⟨locals, world, s.trace ++ [id]⟩

/-- What both WebAssembly translators ask of a function: the entry block is the first, block ids
(32-bit in the source) are pairwise distinct, every target exists, and terminators read declared
locals. -/
structure WellFormedCfg (f : MirFunction) : Prop where
  nodup : (f.blocks.map BasicBlock.id).Nodup
  id_lt : ∀ b ∈ f.blocks, b.id < 2 ^ 32
  target : ∀ b ∈ f.blocks, ∀ t ∈ b.successors, ∃ b' ∈ f.blocks, b'.id = t
  declared : ∀ b ∈ f.blocks, ∀ i ∈ b.terminator.locals, i < f.locals.length

/-- Distinct 32-bit ids bound the number of blocks. -/
theorem WellFormedCfg.length_le {f : MirFunction} (hf : WellFormedCfg f) : f.blocks.length ≤ 2 ^ 32 := by
  have hsub : (f.blocks.map BasicBlock.id).toFinset ⊆ Finset.range (2 ^ 32) := by
    intro id hid
    obtain ⟨b, hb, rfl⟩ := List.mem_map.mp (List.mem_toFinset.mp hid)
    exact Finset.mem_range.mpr (hf.id_lt b hb)
  have hcard := Finset.card_le_card hsub
  rwa [List.toFinset_card_of_nodup hf.nodup, List.length_map, Finset.card_range] at hcard

end Kryos

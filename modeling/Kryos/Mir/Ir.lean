import Mathlib.Data.BitVec
import Mathlib.Data.List.Basic

/-!
# The MIR

The data structures of `kryos-mir/src/ir.rs`: types, operands, r-values, instructions, terminators,
basic blocks, functions and modules.

Two choices differ from a literal transcription.

*R-values are generic in their operands.* `RValue α` is the source's `RValue` with `Operand`
replaced by `α`. The syntax is `RValue Operand`; once its operands have been read, the same r-value
is an `RValue V` over values, and that is what an interpretation of the language is asked to
evaluate. Reading, renaming and substituting operands are then all `RValue.map`.

*Floats are bit patterns.* `f64` constants are stored as the 64 bits the source hashes them by, so
that constants have decidable equality.

Identifiers are natural numbers: they are indices, and no pass wraps one around.
-/

namespace Kryos

/-- A signed 64-bit machine word. -/
abbrev I64 := BitVec 64

/-- Index into `MirFunction.locals`. -/
abbrev LocalId := ℕ

/-- Identifier of a basic block. -/
abbrev BlockId := ℕ

/-! ## Types, constants and operands -/

/-- MIR-level type representation. -/
inductive MirType
  | i8 | i16 | i32 | i64 | i128
  | u8 | u16 | u32 | u64 | u128
  | f32 | f64 | bool | char | str | void
  | ptr (inner : MirType)
  | ref (inner : MirType) (mutable : Bool)
  | shared (inner : MirType)
  | array (elem : MirType) (len : Option ℕ)
  | tuple (elems : List MirType)
  | struct (name : String)
  | enum (name : String)
  | function (params : List MirType) (ret : MirType)
  | dynTrait (name : String)
  | map (key value : MirType)
  deriving Repr, Inhabited

/-- Inline constant values. A float is its bit pattern. -/
inductive Constant
  | int (v : I64)
  | float (bits : UInt64)
  | bool (b : Bool)
  | str (s : String)
  | none
  deriving Repr, DecidableEq, Inhabited

/-- An operand: a local reference or an inline constant. -/
inductive Operand
  | local (id : LocalId)
  | constant (c : Constant)
  deriving Repr, DecidableEq, Inhabited

/-- The local an operand reads, if any. -/
def Operand.locals : Operand → List LocalId
  | .local id => [id]
  | .constant _ => []

/-- MIR binary operators. -/
inductive MirBinOp
  | add | sub | mul | div | mod | pow
  | eq | neq | lt | gt | ltEq | gtEq
  | and | or | bitAnd | bitOr | bitXor | shl | shr
  deriving Repr, DecidableEq, Inhabited

/-- MIR unary operators. -/
inductive MirUnOp
  | neg | not | bitNot
  deriving Repr, DecidableEq, Inhabited

/-! ## R-values -/

/-- Right-hand side of an assignment, over operands `α`. -/
inductive RValue (α : Type)
  | use (op : α)
  | binOp (op : MirBinOp) (left right : α)
  | unOp (op : MirUnOp) (operand : α)
  | call (func : String) (args : List α)
  | callIndirect (callee : α) (args : List α)
  | constInt (v : I64)
  | constFloat (bits : UInt64)
  | constBool (b : Bool)
  | constString (s : String)
  | constNone
  | array (elems : List α)
  | tuple (elems : List α)
  | struct (name : String) (fields : List (String × α))
  | field (object : α) (field : String)
  | index (object index : α)
  | arcAlloc (inner : α)
  | cast (operand : α) (ty : MirType)
  | enumVariant (enumName : String) (variantIdx : ℕ) (fields : List α)
  | enumTag (operand : α)
  | enumPayload (operand : α) (enumName : String) (variantIdx fieldIdx : ℕ)
  | closure (funcName : String) (captures : List α)
  | map (pairs : List (α × α))
  | stringConcat (parts : List α)
  | range (start stop : Option α) (inclusive : Bool)
  | addrOf (id : LocalId) (mutable : Bool)
  | deref (operand : α)
  | comptime (inner : RValue α)
  | makeTraitObject (value : α) (concreteType traitName : String) (ownsData : Bool)
  | vtableCall (object : α) (methodIndex : ℕ) (args : List α) (returnTy : MirType)
  deriving Repr, Inhabited

namespace RValue

variable {α β γ : Type}

/-- Replace every operand. The local under an `addrOf` is not an operand. -/
def mapOperands (f : α → β) : RValue α → RValue β
  | use op => use (f op)
  | binOp op l r => binOp op (f l) (f r)
  | unOp op x => unOp op (f x)
  | call func args => call func (args.map f)
  | callIndirect callee args => callIndirect (f callee) (args.map f)
  | constInt v => constInt v
  | constFloat v => constFloat v
  | constBool b => constBool b
  | constString s => constString s
  | constNone => constNone
  | array es => array (es.map f)
  | tuple es => tuple (es.map f)
  | struct name fs => struct name (fs.map fun p => (p.1, f p.2))
  | field o n => field (f o) n
  | index o i => index (f o) (f i)
  | arcAlloc x => arcAlloc (f x)
  | cast x ty => cast (f x) ty
  | enumVariant n i fs => enumVariant n i (fs.map f)
  | enumTag x => enumTag (f x)
  | enumPayload x n i j => enumPayload (f x) n i j
  | closure n cs => closure n (cs.map f)
  | map ps => map (ps.map fun p => (f p.1, f p.2))
  | stringConcat ps => stringConcat (ps.map f)
  | range s e incl => range (s.map f) (e.map f) incl
  | addrOf l m => addrOf l m
  | deref x => deref (f x)
  | comptime inner => comptime (inner.mapOperands f)
  | makeTraitObject v c t o => makeTraitObject (f v) c t o
  | vtableCall o i args ty => vtableCall (f o) i (args.map f) ty

/-- The operands of an r-value, in the order they are written. -/
def operands : RValue α → List α
  | use op => [op]
  | binOp _ l r => [l, r]
  | unOp _ x => [x]
  | call _ args => args
  | callIndirect callee args => callee :: args
  | constInt _ | constFloat _ | constBool _ | constString _ | constNone => []
  | array es | tuple es => es
  | struct _ fs => fs.map Prod.snd
  | field o _ => [o]
  | index o i => [o, i]
  | arcAlloc x => [x]
  | cast x _ => [x]
  | enumVariant _ _ fs => fs
  | enumTag x => [x]
  | enumPayload x _ _ _ => [x]
  | closure _ cs => cs
  | map ps => ps.flatMap fun p => [p.1, p.2]
  | stringConcat ps => ps
  | range s e _ => s.toList ++ e.toList
  | addrOf _ _ => []
  | deref x => [x]
  | comptime inner => inner.operands
  | makeTraitObject v _ _ _ => [v]
  | vtableCall o _ args _ => o :: args

/-- The locals whose address an r-value takes. -/
def addressed : RValue α → List LocalId
  | addrOf l _ => [l]
  | comptime inner => inner.addressed
  | _ => []

/-- Replace the local under an `addrOf`. -/
def mapAddressed (f : LocalId → LocalId) : RValue α → RValue α
  | addrOf l m => addrOf (f l) m
  | comptime inner => comptime (inner.mapAddressed f)
  | rv => rv

/-- An r-value only depends on its operands. -/
theorem mapOperands_congr {f g : α → β} :
    ∀ rv : RValue α, (∀ a ∈ rv.operands, f a = g a) → rv.mapOperands f = rv.mapOperands g := by
  intro rv
  induction rv with
  | comptime inner ih => intro h; simp only [mapOperands, ih h]
  | struct name fs =>
    intro h
    simp only [mapOperands, struct.injEq, true_and]
    refine List.map_congr_left fun p hp => ?_
    rw [h p.2 (List.mem_map_of_mem hp)]
  | map ps =>
    intro h
    simp only [mapOperands, map.injEq]
    refine List.map_congr_left fun p hp => ?_
    rw [h p.1 (by simp only [operands, List.mem_flatMap]; exact ⟨p, hp, by simp⟩),
      h p.2 (by simp only [operands, List.mem_flatMap]; exact ⟨p, hp, by simp⟩)]
  | range s e incl =>
    intro h
    cases s <;> cases e <;> simp_all [mapOperands, operands]
  | _ => intro h; simp_all [mapOperands, operands]

end RValue

/-! ## Instructions, terminators and blocks -/

/-- A single MIR instruction (non-branching). -/
inductive Instruction
  | assign (dest : LocalId) (value : RValue Operand)
  | arcRetain (ptr : LocalId)
  | arcRelease (ptr : LocalId)
  | drop (id : LocalId)
  | dropIfNe (old : LocalId) (new : Operand) (ty : MirType) (retainedByStore viaMap : Bool)
  | storeField (object : Operand) (field : String) (value : Operand)
  | storeDeref (ptr value : Operand)
  | nop
  | debugLine (line : ℕ)
  | spawn (func : String) (args : List Operand)
  | send (channel value : LocalId)
  | receive (dest channel : LocalId)
  | actorSpawn (dest : LocalId) (dispatchFn : String) (state : Operand)
  | actorSend (actor : LocalId) (handlerTag : ℕ) (args : List Operand)
  | actorStateLoad (dest statePtr : LocalId) (fieldOffset : ℕ)
  | actorStateStore (statePtr : LocalId) (fieldOffset : ℕ) (value : Operand)
  deriving Repr, Inhabited

/-- Block terminator. -/
inductive Terminator
  | ret (value : Option Operand)
  | goto (target : BlockId)
  | branch (cond : Operand) (thenBlock elseBlock : BlockId)
  | switch (value : Operand) (targets : List (I64 × BlockId)) (default : BlockId)
  | unreachable
  deriving Repr, DecidableEq, Inhabited

/-- A basic block: straight-line instructions followed by exactly one terminator. -/
structure BasicBlock where
  id : BlockId
  instructions : List Instruction
  terminator : Terminator
  deriving Repr, Inhabited

/-- The successor block ids of a block. -/
def BasicBlock.successors (b : BasicBlock) : List BlockId :=
  match b.terminator with
  | .ret _ | .unreachable => []
  | .goto t => [t]
  | .branch _ t e => [t, e]
  | .switch _ targets d => targets.map Prod.snd ++ [d]

/-! ## Functions and modules -/

/-- A formal parameter: refers to a local slot. -/
structure MirParam where
  id : LocalId
  ty : MirType
  deriving Repr, Inhabited

/-- A local variable (includes parameters, temporaries, user bindings). -/
structure MirLocal where
  id : LocalId
  name : Option String
  ty : MirType
  mutable : Bool
  deriving Repr, Inhabited

/-- The source annotations the optimisation passes read. -/
structure MirAttributes where
  inline : Bool := false
  pureFn : Bool := false
  isAsync : Bool := false
  deriving Repr, DecidableEq, Inhabited

/-- A single MIR function. -/
structure MirFunction where
  name : String
  params : List MirParam
  retTy : MirType
  blocks : List BasicBlock
  locals : List MirLocal
  attributes : MirAttributes
  deriving Repr, Inhabited

/-- The functions of a module. The definition tables codegen reads are not used by any pass. -/
structure MirModule where
  functions : List MirFunction
  deriving Repr, Inhabited

/-- The block with a given id. Blocks are stored in insertion order, not indexed by id. -/
def MirFunction.findBlock (f : MirFunction) (id : BlockId) : Option BasicBlock :=
  f.blocks.find? fun b => b.id == id

/-- The locals bound to the arguments of a call, in order. -/
def MirFunction.paramLocals (f : MirFunction) : List LocalId := f.params.map MirParam.id

end Kryos

import Mathlib.Data.Int.Notation

/-!
# MIR of the self-hosted compiler

Functions as basic blocks of assignments with a terminator each. What an operand, a right-hand side
or a terminator is, is a number in a record of all fields in the source, and a constructor here.

An integer constant has 32 bits. Floats are left open (`F`), as are the right-hand sides (`R`) and
the instructions (`I`) that no modelled function looks into.
-/

namespace Kryos.SelfHost

inductive BinOp where
  | add | sub | mul | div | mod | pow
  | eq | neq | lt | gt | ltEq | gtEq
  | and | or
  | bitAnd | bitOr | bitXor | shl | shr
  deriving DecidableEq, Repr

inductive UnOp where
  | neg | not | bitNot
  deriving DecidableEq, Repr

/-- A local or a constant. -/
inductive Operand (F : Type) where
  | loc (id : ℤ)
  | int (v : BitVec 32)
  | float (x : F)
  | bool (b : Bool)
  | str (s : List UInt8)
  | none

/-- The right side of an assignment. -/
inductive RValue (F R : Type) where
  | use (operand : Operand F)
  | constInt (v : BitVec 32)
  | constFloat (x : F)
  | constBool (b : Bool)
  | binop (op : BinOp) (left right : Option (Operand F))
  | unop (op : UnOp) (operand : Option (Operand F))
  | other (r : R)

inductive Instruction (F R I : Type) where
  | assign (dest : ℤ) (value : Option (RValue F R))
  | other (i : I)

/-- How a basic block exits. -/
inductive Terminator (F : Type) where
  | ret (value : Option (Operand F))
  | goto (block : ℤ)
  | branch (cond : Option (Operand F)) (thenBlock elseBlock : ℤ)
  | switch (value : Option (Operand F)) (targets : List (BitVec 32)) (blocks : List ℤ)
      (defaultBlock : ℤ)
  | unreachable

structure BasicBlock (F R I : Type) where
  id : ℤ
  instructions : List (Instruction F R I)
  terminator : Option (Terminator F)

structure MirFunction (F R I : Type) where
  blocks : List (BasicBlock F R I)

namespace MirFunction

variable {F R I : Type}

/-- The right sides of all assignments of a function. -/
def rvalues (func : MirFunction F R I) : List (RValue F R) :=
  func.blocks.flatMap fun block => block.instructions.filterMap fun
    | .assign _ value => value
    | .other _ => none

end MirFunction

end Kryos.SelfHost

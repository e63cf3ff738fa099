import Kryos.SelfHost.Mir
import Mathlib.Data.Nat.Notation

/-!
# Constant folding and strength reduction

Two passes of the self-hosted optimizer. Constants are folded in the arithmetic of the compiler, in
32 bits; a multiplication, division or power by a small or round constant is replaced by something
cheaper. A branch on a constant becomes a jump.

The passes change the instructions of a function in place, one after another.
-/

namespace Kryos.SelfHost

variable {F R I : Type}

/-- `integer division overflow`, which ends the compiler -/
inductive Panic where
  | divisionOverflow
  deriving DecidableEq, Repr

/-- The arithmetic of 64 bit floats. -/
structure Floats (F : Type) where
  zero : F
  one : F
  add : F → F → F
  sub : F → F → F
  mul : F → F → F
  div : F → F → F
  mod : F → F → F
  eq : F → F → Bool
  lt : F → F → Bool
  le : F → F → Bool

/-- The operands `op_int`, `op_float` and `op_bool`. -/
inductive Const (F : Type) where
  | int (v : BitVec 32)
  | float (x : F)
  | bool (b : Bool)

/-! ## Constant folding -/

/-- The loop over the exponent. -/
def powLoop (base : BitVec 32) : ℕ → BitVec 32 → BitVec 32
  | 0, result => result
  | exp + 1, result => powLoop base exp (result * base)

/-- A division in the compiler. -/
def checkedDiv (lv rv : BitVec 32) (result : BitVec 32) : Except Panic (Option (Const F)) :=
  if rv = 0 then .ok none
  else if lv = BitVec.intMin 32 ∧ rv = -1 then .error .divisionOverflow
  else .ok (some (.int result))

def foldIntBinop (op : BinOp) (lv rv : BitVec 32) : Except Panic (Option (Const F)) :=
  match op with
  | .add => .ok (some (.int (lv + rv)))
  | .sub => .ok (some (.int (lv - rv)))
  | .mul => .ok (some (.int (lv * rv)))
  | .div => checkedDiv lv rv (lv.sdiv rv)
  | .mod => checkedDiv lv rv (lv.srem rv)
  | .shl => .ok (some (.int (lv <<< (rv.toNat % 32))))
  | .shr => .ok (some (.int (lv.sshiftRight (rv.toNat % 32))))
  | .bitAnd => .ok (some (.int (lv &&& rv)))
  | .bitOr => .ok (some (.int (lv ||| rv)))
  | .bitXor => .ok (some (.int (lv ^^^ rv)))
  | .eq => .ok (some (.bool (lv = rv)))
  | .neq => .ok (some (.bool (lv ≠ rv)))
  | .lt => .ok (some (.bool (lv.toInt < rv.toInt)))
  | .gt => .ok (some (.bool (rv.toInt < lv.toInt)))
  | .ltEq => .ok (some (.bool (lv.toInt ≤ rv.toInt)))
  | .gtEq => .ok (some (.bool (rv.toInt ≤ lv.toInt)))
  | .pow => .ok (some (.int (powLoop lv rv.toInt.toNat 1)))
  | .and | .or => .ok none

/-- The loop over an exponent that is at most 63. -/
def floatPowLoop (fl : Floats F) (base : F) : ℕ → F → F → Option F
  | 0, _, _ => none
  | count + 1, result, exp =>
    if fl.eq result fl.zero then some fl.zero
    else if fl.lt exp fl.one then some result
    else floatPowLoop fl base count (fl.mul result base) (fl.sub exp fl.one)

def floatPow (fl : Floats F) (lv rv : F) : Option F :=
  if fl.le fl.zero rv then floatPowLoop fl lv 64 fl.one rv else none

def foldFloatBinop (fl : Floats F) (op : BinOp) (lv rv : F) : Option (Const F) :=
  match op with
  | .add => some (.float (fl.add lv rv))
  | .sub => some (.float (fl.sub lv rv))
  | .mul => some (.float (fl.mul lv rv))
  | .div => if fl.eq rv fl.zero then none else some (.float (fl.div lv rv))
  | .mod => if fl.eq rv fl.zero then none else some (.float (fl.mod lv rv))
  | .eq => some (.bool (fl.eq lv rv))
  | .neq => some (.bool (!fl.eq lv rv))
  | .lt => some (.bool (fl.lt lv rv))
  | .gt => some (.bool (fl.lt rv lv))
  | .ltEq => some (.bool (fl.le lv rv))
  | .gtEq => some (.bool (fl.le rv lv))
  | .pow => (floatPow fl lv rv).map .float
  | _ => none

def foldBoolBinop (op : BinOp) (lv rv : Bool) : Option (Const F) :=
  match op with
  | .and => some (.bool (lv && rv))
  | .or => some (.bool (lv || rv))
  | .eq => some (.bool (lv == rv))
  | .neq => some (.bool (lv != rv))
  | _ => none

/-- `rv_const_int`, `rv_const_float` and `rv_const_bool`. -/
def Const.toRValue : Const F → RValue F R
  | .int v => .constInt v
  | .float x => .constFloat x
  | .bool b => .constBool b

def tryFoldBinop (fl : Floats F) (op : BinOp) (left right : Option (Operand F)) :
    Except Panic (Option (RValue F R)) :=
  match left, right with
  | some (.int lv), some (.int rv) => (foldIntBinop op lv rv).map (Option.map Const.toRValue)
  | some (.float lv), some (.float rv) => .ok ((foldFloatBinop fl op lv rv).map Const.toRValue)
  | some (.bool lv), some (.bool rv) => .ok ((foldBoolBinop op lv rv).map Const.toRValue)
  | _, _ => .ok none

def tryFoldUnop (fl : Floats F) (op : UnOp) (operand : Option (Operand F)) :
    Option (RValue F R) :=
  match op, operand with
  | .neg, some (.int v) => some (.constInt (0 - v))
  | .neg, some (.float x) => some (.constFloat (fl.sub fl.zero x))
  | .not, some (.bool b) => some (.constBool !b)
  | .bitNot, some (.int v) => some (.constInt (0 - (v + 1)))
  | _, _ => none

def tryFold (fl : Floats F) : RValue F R → Except Panic (Option (RValue F R))
  | .binop op left right => tryFoldBinop fl op left right
  | .unop op operand => .ok (tryFoldUnop fl op operand)
  | _ => .ok none

/-- One round of the loop over the instructions. -/
def foldInstruction (fl : Floats F) :
    Instruction F R I → Except Panic (Instruction F R I)
  | .assign dest (some rv) => do
    let folded ← tryFold fl rv
    .ok (.assign dest (some (folded.getD rv)))
  | inst => .ok inst

/-- A branch on a constant becomes a jump. -/
def foldTerminator : Terminator F → Terminator F
  | .branch (some (.bool b)) thenBlock elseBlock => .goto (if b then thenBlock else elseBlock)
  | term => term

def foldInstructions (fl : Floats F) (block : BasicBlock F R I) :
    Except Panic (BasicBlock F R I) := do
  let instructions ← block.instructions.mapM (foldInstruction fl)
  .ok { block with instructions }

def foldBranch (block : BasicBlock F R I) : BasicBlock F R I :=
  { block with terminator := block.terminator.map foldTerminator }

def optConstantFold (fl : Floats F) (func : MirFunction F R I) :
    Except Panic (MirFunction F R I) := do
  let blocks ← func.blocks.mapM (foldInstructions fl)
  .ok ⟨blocks.map foldBranch⟩

/-! ## Strength reduction -/

def isPowerOfTwo (n : BitVec 32) : Bool := if n.toInt ≤ 0 then false else n &&& (n - 1) = 0

/-- The loop that halves. -/
def log2Loop (val result : ℕ) : ℕ := if val > 1 then log2Loop (val / 2) (result + 1) else result

def log2Int (n : BitVec 32) : BitVec 32 := BitVec.ofNat 32 (log2Loop n.toInt.toNat 0)

/-- An integer constant with the value `n`. -/
def isConst (operand : Operand F) (n : BitVec 32) : Bool :=
  match operand with
  | .int v => v = n
  | _ => false

/-- The shift that stands for a constant above one that is a power of two. -/
def shiftOf (operand : Operand F) : Option (BitVec 32) :=
  match operand with
  | .int v => if 1 < v.toInt ∧ isPowerOfTwo v then some (log2Int v) else none
  | _ => none

def shiftBy (op : BinOp) (operand : Operand F) (shift : BitVec 32) : RValue F R :=
  .binop op (some operand) (some (.int shift))

def reduceBinop (op : BinOp) (l r : Operand F) : Option (RValue F R) :=
  match op with
  | .mul =>
    if isConst r 0 then some (.constInt 0)
    else if isConst l 0 then some (.constInt 0)
    else if isConst r 1 then some (.use l)
    else if isConst l 1 then some (.use r)
    else ((shiftOf r).map (shiftBy .shl l)).or ((shiftOf l).map (shiftBy .shl r))
  | .add => if isConst r 0 then some (.use l) else if isConst l 0 then some (.use r) else none
  | .sub => if isConst r 0 then some (.use l) else none
  | .div => if isConst r 1 then some (.use l) else (shiftOf r).map (shiftBy .shr l)
  | .pow =>
    if isConst r 0 then some (.constInt 1)
    else if isConst r 1 then some (.use l)
    else if isConst r 2 then some (.binop .mul (some l) (some l))
    else none
  | .bitAnd =>
    if isConst r 0 then some (.constInt 0) else if isConst l 0 then some (.constInt 0) else none
  | .bitOr | .bitXor =>
    if isConst r 0 then some (.use l) else if isConst l 0 then some (.use r) else none
  | .shl | .shr => if isConst r 0 then some (.use l) else none
  | _ => none

def tryStrengthReduce : RValue F R → Option (RValue F R)
  | .binop op (some l) (some r) => reduceBinop op l r
  | _ => none

def reduceInstruction : Instruction F R I → Instruction F R I
  | .assign dest (some rv) => .assign dest (some ((tryStrengthReduce rv).getD rv))
  | inst => inst

def optStrengthReduce (func : MirFunction F R I) : MirFunction F R I :=
  ⟨func.blocks.map fun block =>
    { block with instructions := block.instructions.map reduceInstruction }⟩

end Kryos.SelfHost

import Kryos.Lib.X86
import Kryos.SelfHost.Mir

/-!
# Code for right-hand sides

The x86-64 code that the generator emits for operators. Both operands of a binary operator are
loaded into the scratch registers `R10` and `R11`, which hold no local; the operand of a unary
operator is loaded into the register of the result. How a local or a string constant gets into a
register is left out, and so is the code of calls, fields and the like.

No code is emitted for the power operator, which the lowering turns into a call.

## Main results

* `run_cgEmitBinop`, `run_cgEmitUnop` — what the emitted code computes
* `run_cgEmitBinop_pow` — the register of the result keeps what it held
-/

namespace Kryos.SelfHost

open X86

variable {F R I : Type} {dest : Reg} {m : Machine}

/-- The registers that hold locals, `RAX` also for a local that is spilled. -/
def raAllocatableRegs : List Reg :=
  [rbx, r12, r13, r14, r15, rax, rcx, rdx, rsi, rdi, r8, r9]

def isComparisonOp : BinOp → Bool
  | .eq | .neq | .lt | .gt | .ltEq | .gtEq => true
  | _ => false

def mirBinopToCc : BinOp → Cc
  | .eq => .e
  | .neq => .ne
  | .lt => .l
  | .gt => .g
  | .ltEq => .le
  | .gtEq => .ge
  | _ => .e

/-- A move, unless the registers are the same. -/
def movTo (dest src : Reg) : List Alu := if src ≠ dest then [.movRegReg dest src] else []

/-- The code behind the loads of the operands into `R10` and `R11`. -/
def cgEmitBinop (op : BinOp) (dest : Reg) : List Alu :=
  match op with
  | .add => [.addRegReg r10 r11] ++ movTo dest r10
  | .sub => [.subRegReg r10 r11] ++ movTo dest r10
  | .mul => [.imulRegReg r10 r11] ++ movTo dest r10
  | .div => [.movRegReg rax r10, .cqo, .idivReg r11] ++ movTo dest rax
  | .mod => [.movRegReg rax r10, .cqo, .idivReg r11] ++ movTo dest rdx
  | .bitAnd => [.andRegReg r10 r11] ++ movTo dest r10
  | .bitOr => [.orRegReg r10 r11] ++ movTo dest r10
  | .bitXor => [.xorRegReg r10 r11] ++ movTo dest r10
  | .shl => [.movRegReg rcx r11, .shlRegCl r10] ++ movTo dest r10
  | .shr => [.movRegReg rcx r11, .sarRegCl r10] ++ movTo dest r10
  | .and =>
    [.testRegReg r10 r10, .setcc .ne r10, .testRegReg r11 r11, .setcc .ne r11, .andRegReg r10 r11,
      .movzxR64R8 dest r10]
  | .or => [.orRegReg r10 r11, .testRegReg r10 r10, .setcc .ne dest, .movzxR64R8 dest dest]
  | op =>
    if isComparisonOp op then
      [.cmpRegReg r10 r11, .setcc (mirBinopToCc op) dest, .movzxR64R8 dest dest]
    else []

/-- The code behind the load of the operand into the register of the result. -/
def cgEmitUnop (op : UnOp) (dest : Reg) : List Alu :=
  match op with
  | .neg => [.negReg dest]
  | .not => [.testRegReg dest dest, .setcc .e dest, .movzxR64R8 dest dest]
  | .bitNot => [.notReg dest]

/-- What the code of a function runs with. -/
structure Env (R : Type) where
  /-- the values of the locals -/
  loc : ℤ → BitVec 64
  /-- the handles of the string constants -/
  str : List UInt8 → BitVec 64
  /-- the code of the other right-hand sides -/
  other : R → Reg → Machine → Option Machine

variable {env : Env R}

/-- What `cg_load_operand` leaves in the register. Floats are loaded as zero. -/
def cgLoadOperand (env : Env R) : Operand F → BitVec 64
  | .loc id => env.loc id
  | .int v => v.signExtend 64
  | .bool b => ofBool b
  | .str s => env.str s
  | .float _ => 0
  | .none => 0

def load (env : Env R) (r : Reg) (operand : Option (Operand F)) (m : Machine) : Machine :=
  match operand with
  | some operand => m.set r (cgLoadOperand env operand)
  | none => m

/-- The run of the code for a right-hand side, whose value is in `dest` at the end. -/
def cgEmitRvalue (env : Env R) (dest : Reg) (m : Machine) : RValue F R → Option Machine
  | .use operand => some (load env dest (some operand) m)
  | .constInt v => run [.movRegImm32 dest v] m
  | .constBool b => run (if b then [.movRegImm32 dest 1] else [.xorRegReg dest dest]) m
  | .constFloat _ => run [.movRegImm32 dest 0] m
  | .binop op left right => run (cgEmitBinop op dest) (load env r11 right (load env r10 left m))
  | .unop op operand => run (cgEmitUnop op dest) (load env dest operand m)
  | .other r => env.other r dest m

/-- The value of a right-hand side; a fault has none. -/
def value (env : Env R) (dest : Reg) (m : Machine) (rv : RValue F R) : Option (BitVec 64) :=
  (cgEmitRvalue env dest m rv).map fun m => m.regs dest

/-- The block that the code of a terminator jumps to. Behind a test the code for a branch jumps to
the else-block if the zero flag is set. -/
def nextBlock (env : Env R) (m : Machine) : Terminator F → Option ℤ
  | .ret _ => none
  | .goto block => some block
  | .branch cond thenBlock elseBlock =>
    let flags := match cond with
      | some cond => some (testFlags (cgLoadOperand env cond) (cgLoadOperand env cond))
      | none => m.flags
    flags.map fun f => if f.holds .e then elseBlock else thenBlock
  | .switch none _ _ defaultBlock => some defaultBlock
  | .switch (some value) targets blocks defaultBlock =>
    let found := (targets.zip blocks).find? fun target =>
      (cmpFlags (cgLoadOperand env value) (target.1.signExtend 64)).holds .e
    some (found.elim defaultBlock Prod.snd)
  | .unreachable => none

/-! ## What the code computes -/

/-- The values of the operators for which there is code. -/
def binopValue (a b : BitVec 64) : BinOp → Option (BitVec 64)
  | .add => some (a + b)
  | .sub => some (a - b)
  | .mul => some (a * b)
  | .div => if DivFaults a b then none else some (BitVec.ofInt 64 (a.toInt.tdiv b.toInt))
  | .mod => if DivFaults a b then none else some (BitVec.ofInt 64 (a.toInt.tmod b.toInt))
  | .pow => none
  | .bitAnd => some (a &&& b)
  | .bitOr => some (a ||| b)
  | .bitXor => some (a ^^^ b)
  | .shl => some (a <<< (b.toNat % 64))
  | .shr => some (a.sshiftRight (b.toNat % 64))
  | .and => some (ofBool (a ≠ 0 && b ≠ 0))
  | .or => some (ofBool (a ||| b ≠ 0))
  | op => some (ofBool ((mirBinopToCc op).compares a.toInt b.toInt))

def unopValue (a : BitVec 64) : UnOp → BitVec 64
  | .neg => -a
  | .not => ofBool (a = 0)
  | .bitNot => ~~~a

theorem run_movTo (is : List Alu) (dest src : Reg) (m : Machine) :
    (run (is ++ movTo dest src) m).map (fun m => m.regs dest) =
      (run is m).map fun m => m.regs src := by
  rw [run_append, Option.map_bind, Option.map_eq_bind]
  refine congrArg _ (funext fun m => ?_)
  rw [Function.comp_apply, movTo]
  split
  · exact congrArg some (set_regs_self ..)
  · next h => rw [not_not.mp h]; rfl

theorem run_cgEmitBinop_pow (dest : Reg) (m : Machine) : run (cgEmitBinop .pow dest) m = some m :=
  rfl

theorem run_division (m : Machine) : run [.movRegReg rax r10, .cqo, .idivReg r11] m =
    if DivFaults (m.regs r10) (m.regs r11) then none
    else some ((((m.set rax (m.regs r10)).set rdx (if (m.regs r10).msb then -1 else 0)).result rax
      (BitVec.ofInt 64 ((m.regs r10).toInt.tdiv (m.regs r11).toInt))).result rdx
      (BitVec.ofInt 64 ((m.regs r10).toInt.tmod (m.regs r11).toInt))) := by
  have hright : (m.set rax (m.regs r10)).regs r11 = m.regs r11 := set_regs_of_ne (by decide) _
  rw [run_cons rfl, run_cqo_idiv (by decide), set_regs_self, hright]
  rfl

/-- Behind the test of a register that gets its own truth value. -/
def tested (r : Reg) (m : Machine) : Machine :=
  { m with flags := testFlags (m.regs r) (m.regs r) }.set r
    (withLowByte (m.regs r) (if decide (m.regs r ≠ 0) = true then 1 else 0))

theorem holds_ne_test (a : BitVec 64) : (testFlags a a).holds .ne = decide (a ≠ 0) := by
  rw [Flags.holds, zero_testFlags_self, ← decide_not]

theorem run_test_setcc (r : Reg) (is : List Alu) (m : Machine) :
    run (.testRegReg r r :: .setcc .ne r :: is) m = run is (tested r m) := by
  rw [run_cons rfl, run_cons (exec_setcc rfl _ _), holds_ne_test]
  rfl

theorem tested_regs_of_ne {r r' : Reg} (h : r' ≠ r) (m : Machine) :
    (tested r m).regs r' = m.regs r' :=
  set_regs_of_ne h _

theorem setWidth_tested (r : Reg) (m : Machine) :
    ((tested r m).regs r).setWidth 8 = if decide (m.regs r ≠ 0) = true then 1 else 0 := by
  rw [tested, set_regs_self, withLowByte, BitVec.setWidth_append_eq_right]

/-- Both truth values are in the low bytes, and the other bytes are dropped in the end. -/
theorem run_and (dest : Reg) (m : Machine) :
    (run (cgEmitBinop .and dest) m).map (fun m => m.regs dest) =
      some (ofBool (m.regs r10 ≠ 0 && m.regs r11 ≠ 0)) := by
  have hleft := setWidth_tested r10 m
  have hright := setWidth_tested r11 (tested r10 m)
  have hkeep : (tested r10 m).regs r11 = m.regs r11 := tested_regs_of_ne (by decide) m
  rw [hkeep] at hright
  rw [cgEmitBinop, run_test_setcc, run_test_setcc, run_cons rfl, run_cons rfl, run, Option.map_some,
    set_regs_self, result_regs_self, BitVec.setWidth_and, hright, tested_regs_of_ne (by decide),
    hleft, ofBool]
  cases decide (m.regs r10 ≠ 0) <;> cases decide (m.regs r11 ≠ 0) <;> rfl

/-- The emitted code computes the operator. -/
theorem run_cgEmitBinop {op : BinOp} (hop : op ≠ .pow) (dest : Reg) (m : Machine) :
    (run (cgEmitBinop op dest) m).map (fun m => m.regs dest) =
      binopValue (m.regs r10) (m.regs r11) op := by
  have hcmp (cc : Cc) (hcc : cc ∈ [Cc.e, .ne, .l, .g, .le, .ge]) :
      (run [.cmpRegReg r10 r11, .setcc cc dest, .movzxR64R8 dest dest] m).map
        (fun m => m.regs dest) =
          some (ofBool (cc.compares (m.regs r10).toInt (m.regs r11).toInt)) := by
    rw [run_cons rfl, run_setcc_movzx rfl, holds_cmpFlags hcc]
  cases op with
  | pow => exact absurd rfl hop
  | add | sub | mul | bitAnd | bitOr | bitXor =>
    rw [cgEmitBinop, run_movTo, run_cons rfl, run, Option.map_some, result_regs_self]
    rfl
  | div =>
    rw [cgEmitBinop, run_movTo, run_division, binopValue, apply_ite (Option.map _), Option.map_none,
      Option.map_some, result_regs_of_ne (by decide), result_regs_self]
  | mod =>
    rw [cgEmitBinop, run_movTo, run_division, binopValue, apply_ite (Option.map _), Option.map_none,
      Option.map_some, result_regs_self]
  | shl | shr =>
    have hcount : (m.set rcx (m.regs r11)).count = (m.regs r11).toNat % 64 := by
      rw [Machine.count, set_regs_self]
    rw [cgEmitBinop, run_movTo, run_cons rfl, run_cons rfl, run, Option.map_some, result_regs_self,
      hcount, set_regs_of_ne (by decide)]
    rfl
  | and => exact run_and dest m
  | or =>
    rw [cgEmitBinop, run_cons rfl, run_cons rfl, run_setcc_movzx rfl, result_regs_self,
      holds_ne_test]
    rfl
  | eq | neq | lt | gt | ltEq | gtEq => exact hcmp _ (by decide)

theorem run_cgEmitUnop (op : UnOp) (dest : Reg) (m : Machine) :
    (run (cgEmitUnop op dest) m).map (fun m => m.regs dest) =
      some (unopValue (m.regs dest) op) := by
  cases op with
  | neg | bitNot => exact congrArg some (set_regs_self ..)
  | not =>
    rw [cgEmitUnop, run_cons rfl, run_setcc_movzx rfl, Flags.holds, zero_testFlags_self]
    rfl

/-! ## Values of right-hand sides -/

theorem ne_scratch_of_mem (h : dest ∈ raAllocatableRegs) : dest ≠ r10 ∧ dest ≠ r11 := by
  revert h
  revert dest
  decide

theorem value_binop {op : BinOp} (hop : op ≠ .pow) (env : Env R) (dest : Reg) (m : Machine)
    (left right : Operand F) : value env dest m (.binop op (some left) (some right) : RValue F R) =
      binopValue (cgLoadOperand env left) (cgLoadOperand env right) op := by
  have hright := set_regs_self (m := m.set r10 (cgLoadOperand env left)) r11
    (cgLoadOperand env right)
  have hleft : ((m.set r10 (cgLoadOperand env left)).set r11 (cgLoadOperand env right)).regs r10 =
      cgLoadOperand env left := by
    rw [set_regs_of_ne (by decide), set_regs_self]
  rw [value, cgEmitRvalue, run_cgEmitBinop hop, load, load, hleft, hright]

theorem value_pow (hdest : dest ∈ raAllocatableRegs) (env : Env R) (m : Machine)
    (left right : Option (Operand F)) :
    value env dest m (.binop .pow left right : RValue F R) = some (m.regs dest) := by
  obtain ⟨hne, hne'⟩ := ne_scratch_of_mem hdest
  have hkeep (r : Reg) (hr : dest ≠ r) (operand : Option (Operand F)) (m : Machine) :
      (load env r operand m).regs dest = m.regs dest := by
    cases operand with
    | none => rfl
    | some operand => exact set_regs_of_ne hr _
  rw [value, cgEmitRvalue, run_cgEmitBinop_pow, Option.map_some, hkeep r11 hne', hkeep r10 hne]

theorem value_unop (op : UnOp) (env : Env R) (dest : Reg) (m : Machine) (operand : Operand F) :
    value env dest m (.unop op (some operand) : RValue F R) =
      some (unopValue (cgLoadOperand env operand) op) := by
  rw [value, cgEmitRvalue, run_cgEmitUnop, load, set_regs_self]

theorem value_use (env : Env R) (dest : Reg) (m : Machine) (operand : Operand F) :
    value env dest m (.use operand : RValue F R) = some (cgLoadOperand env operand) :=
  congrArg some (set_regs_self ..)

theorem value_constInt (env : Env R) (dest : Reg) (m : Machine) (v : BitVec 32) :
    value env dest m (.constInt v : RValue F R) = some (v.signExtend 64) :=
  congrArg some (set_regs_self ..)

theorem value_constFloat (env : Env R) (dest : Reg) (m : Machine) (x : F) :
    value env dest m (.constFloat x : RValue F R) = some 0 :=
  congrArg some (set_regs_self ..)

theorem value_constBool (env : Env R) (dest : Reg) (m : Machine) (b : Bool) :
    value env dest m (.constBool b : RValue F R) = some (ofBool b) := by
  cases b with
  | true => exact congrArg some (set_regs_self ..)
  | false => exact congrArg some ((set_regs_self ..).trans (BitVec.xor_self ..))

end Kryos.SelfHost
